import Mathlib.Algebra.Order.Ring.Rat
import Mathlib.Data.Rat.Cast.Order
import Mathlib.Tactic.FieldSimp
import LlmMemory.Lib.TokenBucket
import LlmMemory.Server.Tools

/-!
# The rate limiter of the MCP server

Every call of a tool (`call`) is checked against a bucket of tokens of its user
and of the tier of the tool (`check`), unless there is no such tool. Times are
in seconds; they and the tokens are exact.

Such a limiter is a token bucket per user and tier (`toLib_run`), hence what it
answers is bounded in every window, does not depend on the calls of other users
or tiers, nor on what was denied before (`run_token_bucket`).
-/

namespace LlmMemory.RateLimiter

open TokenBucket (Bucket Buckets)

/-- A tier of tools: its name, and how many calls a minute it has. -/
structure Tier where
  name : String
  perMinute : ℕ
  deriving DecidableEq, Repr

/-- The tier of the tools that read. -/
def READ_TIER : Tier := ⟨"read", 600⟩

/-- The tier of the tools that write. -/
def WRITE_TIER : Tier := ⟨"write", 60⟩

/-- The tier of a rebuild. -/
def HEAVY_TIER : Tier := ⟨"heavy", 6⟩

/-- The tiers. -/
def tiers : List Tier := [READ_TIER, WRITE_TIER, HEAVY_TIER]

/-- The tier of a tool. -/
def tierOf (tool : String) : Tier :=
  match tool with
  | "raw_append" => WRITE_TIER
  | "schema_update" => WRITE_TIER
  | "wiki_rebuild" => HEAVY_TIER
  | "export" => HEAVY_TIER
  | _ => READ_TIER

/-- Every tool has one of the tiers. -/
theorem tierOf_mem (tool : String) : tierOf tool ∈ tiers := by
  unfold tierOf
  split <;> decide

/-- The tier of a tool that reads has the name that it gives. -/
theorem tierOf_name (t : ReadTool) : (tierOf t.name).name = t.tier := by
  cases t <;> rfl

/-! ## The limiter -/

/-- The tokens of a bucket at a time: it is refilled at `perMinute / 60` tokens
    per second. -/
def refilled (tier : Tier) (now : ℚ) (entry : Bucket ℚ) : ℚ :=
  let elapsed := max 0 (now - entry.lastRefill)
  let refill := elapsed * (tier.perMinute / 60)
  min (entry.tokens + refill) tier.perMinute

/-- Whether a request is allowed, and takes a token, and the buckets after it. -/
def check (now : ℚ) (userId : String) (tier : Tier) (buckets : Buckets ℚ (String × String)) :
    Bool × Buckets ℚ (String × String) :=
  let key := (userId, tier.name)
  let entry := (buckets key).getD ⟨tier.perMinute, now⟩
  let tokens := refilled tier now entry
  if tokens ≥ 1 then (true, Function.update buckets key (some ⟨tokens - 1, now⟩))
  else (false, Function.update buckets key (some ⟨tokens, now⟩))

/-- A call of `check`. -/
structure Check where
  now : ℚ
  userId : String
  tier : { tier : Tier // tier ∈ tiers }
  deriving DecidableEq

/-- The key of the bucket that is checked. -/
def Check.key (c : Check) : String × String := (c.userId, c.tier.val.name)

/-- The limiter at the start, without buckets. -/
def new : Buckets ℚ (String × String) := fun _ => none

/-- The calls with their answers. -/
def run (buckets : Buckets ℚ (String × String)) : List Check → List (Check × Bool)
  | [] => []
  | c :: cs =>
    let (answer, buckets) := check c.now c.userId c.tier buckets
    (c, answer) :: run buckets cs

/-- The buckets after the calls. -/
def after (buckets : Buckets ℚ (String × String)) : List Check → Buckets ℚ (String × String)
  | [] => buckets
  | c :: cs => after (check c.now c.userId c.tier buckets).2 cs

/-! ## Tool calls -/

/-- The tools that are known. -/
def isKnownTool (name : String) : Bool :=
  name ∈ ["raw_append", "raw_read", "raw_search", "wiki_read", "wiki_list", "wiki_rebuild",
    "schema_read", "schema_update", "export"]

/-- What becomes of a call before its tool runs. -/
inductive Admission
  | unknownTool (code : Int) (message : String)
  | rateLimited (result : Json)
  | admitted

/-- A request `tools/call`. -/
structure Request where
  now : ℚ
  userId : String
  tool : String
  deriving DecidableEq

/-- How `call` begins. A tool that is unknown is refused before it would take a token. -/
def call (r : Request) (buckets : Buckets ℚ (String × String)) :
    Admission × Buckets ℚ (String × String) :=
  if ¬ isKnownTool r.tool then
    (.unknownTool (-32602) s!"unknown tool: {r.tool}", buckets)
  else
    let tier := tierOf r.tool
    let (allowed, buckets) := check r.now r.userId tier buckets
    if allowed then (.admitted, buckets)
    else (.rateLimited (callToolResultErr s!"rate_limited: {tier.name} tier"), buckets)

/-- The buckets after the requests. -/
def served (buckets : Buckets ℚ (String × String)) : List Request → Buckets ℚ (String × String)
  | [] => buckets
  | r :: rs => served (call r buckets).2 rs

/-- The calls of `check` that requests lead to. -/
def checks (rs : List Request) : List Check :=
  (rs.filter fun r => isKnownTool r.tool).map fun r =>
    ⟨r.now, r.userId, tierOf r.tool, tierOf_mem r.tool⟩

/-- A call of a known tool is checked. -/
theorem checks_cons_of_known {r : Request} {rs : List Request} (h : isKnownTool r.tool) :
    checks (r :: rs) = ⟨r.now, r.userId, tierOf r.tool, tierOf_mem r.tool⟩ :: checks rs := by
  rw [checks, List.filter_cons, if_pos h, List.map_cons, checks]

/-- A call of an unknown tool takes nothing. -/
theorem call_buckets (r : Request) (buckets : Buckets ℚ (String × String)) :
    (call r buckets).2 = if isKnownTool r.tool then
      (check r.now r.userId (tierOf r.tool) buckets).2 else buckets := by
  unfold call
  by_cases h : isKnownTool r.tool = true
  · rw [if_neg (by simpa using h), if_pos h]
    dsimp only
    split <;> rfl
  · rw [if_pos h, if_neg h]

/-- The requests change the buckets as their checks do: those for no tool cost nothing. -/
theorem served_eq (rs : List Request) (buckets : Buckets ℚ (String × String)) :
    served buckets rs = after buckets (checks rs) := by
  induction rs generalizing buckets with
  | nil => rfl
  | cons r rs ih =>
    rw [served, ih, call_buckets]
    by_cases h : isKnownTool r.tool = true
    · rw [if_pos h, checks_cons_of_known h]
      rfl
    · rw [if_neg h, checks, checks, List.filter_cons, if_neg h]

/-! ## The limiter as token buckets -/

/-- The capacity of a bucket. -/
def capacity (key : String × String) : ℚ :=
  ((tiers.find? fun tier => tier.name = key.2).map Tier.perMinute).getD 0

/-- The tokens per second of a bucket. -/
def rate (key : String × String) : ℚ := capacity key / 60

/-- The tiers have different names. -/
theorem find_tier : ∀ tier ∈ tiers, tiers.find? (fun t => t.name = tier.name) = some tier := by
  decide

/-- The capacity of a bucket is that of its tier. -/
theorem capacity_key (c : Check) : capacity c.key = c.tier.val.perMinute := by
  rw [capacity, Check.key, find_tier c.tier c.tier.property]
  rfl

/-- A bucket has room for a token. -/
theorem one_le_capacity (c : Check) : 1 ≤ capacity c.key := by
  have hall : ∀ tier ∈ tiers, 1 ≤ tier.perMinute := by decide
  rw [capacity_key]
  exact_mod_cast hall c.tier c.tier.property

theorem capacity_nonneg (key : String × String) : 0 ≤ capacity key := Nat.cast_nonneg _

theorem rate_nonneg (key : String × String) : 0 ≤ rate key :=
  div_nonneg (capacity_nonneg key) (by norm_num)

/-- The check, as a call of a token bucket. -/
def Check.toLib (c : Check) : TokenBucket.Call ℚ (String × String) := ⟨c.now, c.key⟩

/-- The keys of calls are those of their users and tiers. -/
theorem key_eq_iff {c c' : Check} : c.key = c'.key ↔ c.userId = c'.userId ∧ c.tier = c'.tier := by
  constructor
  · intro hkey
    obtain ⟨huser, hname⟩ := Prod.mk.inj hkey
    have hfound := find_tier c.tier c.tier.property
    rw [hname, find_tier c'.tier c'.tier.property] at hfound
    exact ⟨huser, Subtype.ext (Option.some_inj.1 hfound).symm⟩
  · rintro ⟨huser, htier⟩
    rw [Check.key, Check.key, huser, htier]

/-- Checks that are the same calls are the same. -/
theorem toLib_injective : Function.Injective Check.toLib := by
  intro c c' h
  obtain ⟨hnow, hkey⟩ := TokenBucket.Call.mk.inj h
  obtain ⟨huser, htier⟩ := key_eq_iff.1 hkey
  cases c
  cases c'
  simp only at hnow huser htier
  rw [hnow, huser, htier]

/-- What is in a bucket after it is refilled is its level. -/
theorem refilled_getD (c : Check) (buckets : Buckets ℚ (String × String)) :
    refilled c.tier c.now ((buckets c.key).getD ⟨c.tier.val.perMinute, c.now⟩) =
      TokenBucket.level capacity rate buckets c.key c.now := by
  unfold refilled TokenBucket.level rate
  rw [capacity_key]
  cases buckets c.key with
  | none => simp
  | some b => rfl

/-- A check is one of token buckets. -/
theorem toLib_check (c : Check) (buckets : Buckets ℚ (String × String)) :
    check c.now c.userId c.tier buckets = TokenBucket.check capacity rate c.toLib buckets := by
  have h := refilled_getD c buckets
  rw [Check.key] at h
  unfold check TokenBucket.check
  simp only [h]
  rfl

theorem toLib_run (cs : List Check) (buckets : Buckets ℚ (String × String)) :
    (run buckets cs).map (Prod.map Check.toLib id) =
      TokenBucket.run capacity rate buckets (cs.map Check.toLib) := by
  induction cs generalizing buckets with
  | nil => rfl
  | cons c cs ih =>
    rw [List.map_cons, TokenBucket.run, ← toLib_check, ← ih]
    rfl

theorem toLib_after (cs : List Check) (buckets : Buckets ℚ (String × String)) :
    after buckets cs = TokenBucket.after capacity rate buckets (cs.map Check.toLib) := by
  induction cs generalizing buckets with
  | nil => rfl
  | cons c cs ih => rw [after, ih, List.map_cons, TokenBucket.after, ← toLib_check]

/-! ## Runs -/

/-- The clock does not go back between the calls. -/
def Sorted (cs : List Check) : Prop := cs.Pairwise fun c c' => c.now ≤ c'.now

/-- A call of a user, on a tier. -/
def Check.isOf (userId : String) (tier : { tier : Tier // tier ∈ tiers }) (c : Check) : Bool :=
  c.userId = userId && c.tier = tier

/-- How many calls of a user on a tier are allowed in a closed window of time. -/
def allowed (userId : String) (tier : { tier : Tier // tier ∈ tiers }) (s s' : ℚ)
    (answers : List (Check × Bool)) : ℕ :=
  answers.countP fun x => x.2 && x.1.isOf userId tier && s ≤ x.1.now && x.1.now ≤ s'

variable {cs : List Check} {c : Check} {userId : String} {tier : { tier : Tier // tier ∈ tiers }}

/-- The checks of a user in a tier are those of a key. -/
theorem isOf_eq : c.isOf userId tier = decide (c.key = (userId, tier.val.name)) := by
  have h : c.key = (⟨0, userId, tier⟩ : Check).key ↔ _ := key_eq_iff
  rw [Check.isOf, ← Bool.decide_and]
  exact decide_eq_decide.2 h.symm

/-- Checks in the order of their times are so as calls. -/
theorem Sorted.toLib (h : Sorted cs) : TokenBucket.Sorted (cs.map Check.toLib) :=
  List.pairwise_map.2 h

/-- The calls begin at some time. -/
theorem Sorted.start (h : Sorted cs) : ∃ t : ℚ, TokenBucket.Until t new ∧
    ∀ c ∈ cs.map Check.toLib, t ≤ c.now := by
  have hnew : ∀ t, TokenBucket.Until t new := by
    intro t key b hb
    cases hb
  cases cs with
  | nil => exact ⟨0, hnew 0, List.forall_mem_nil _⟩
  | cons c cs =>
    have hlater := (List.pairwise_cons.1 h.toLib).1
    exact ⟨c.now, hnew c.now, List.forall_mem_cons.2 ⟨le_rfl, hlater⟩⟩

theorem good_new : TokenBucket.Good capacity new := by
  intro key b hb
  cases hb

/-- The checks allowed are the calls allowed. -/
theorem allowed_eq (s s' : ℚ) (answers : List (Check × Bool)) : allowed userId tier s s' answers =
    TokenBucket.allowed (userId, tier.val.name) s s' (answers.map (Prod.map Check.toLib id)) := by
  rw [allowed, TokenBucket.allowed, List.countP_map]
  simp only [isOf_eq]
  rfl

/-- The buckets are those of calls, and hold what their tier allows. -/
theorem bounded_after (cs : List Check) {key : String × String} {b : Bucket ℚ}
    (hb : after new cs key = some b) :
    ∃ tier ∈ tiers, key.2 = tier.name ∧ 0 ≤ b.tokens ∧ b.tokens ≤ tier.perMinute := by
  rw [toLib_after] at hb
  have hgood := good_new.after capacity_nonneg rate_nonneg (cs.map Check.toLib) key b hb
  rcases TokenBucket.key_of_after hb with ⟨c', hc', hkey⟩ | hb
  · obtain ⟨c, -, rfl⟩ := List.mem_map.1 hc'
    have hcap := capacity_key c
    rw [show c.key = key from hkey] at hcap
    exact ⟨c.tier, c.tier.property, congrArg Prod.snd hkey.symm, hgood.1, hcap ▸ hgood.2⟩
  · cases hb

/-- In any interval, a user gets the capacity of a tier and what is refilled, at most. -/
theorem allowed_le (hsorted : Sorted cs) (s : ℚ) {T : ℚ} (hT : 0 ≤ T) :
    (allowed userId tier s (s + T) (run new cs) : ℚ) ≤
      tier.val.perMinute + tier.val.perMinute * T / 60 := by
  obtain ⟨t, huntil, hstart⟩ := hsorted.start
  have hcap : capacity (userId, tier.val.name) = tier.val.perMinute :=
    capacity_key ⟨0, userId, tier⟩
  rw [allowed_eq, toLib_run]
  calc _ ≤ capacity (userId, tier.val.name) + (s + T - s) * rate (userId, tier.val.name) :=
        TokenBucket.allowed_window_le capacity_nonneg rate_nonneg good_new huntil hsorted.toLib
          hstart (le_add_of_nonneg_right hT)
    _ = _ := by
      rw [rate, hcap]
      ring

/-- The answers are those of the token buckets. -/
theorem getElem?_toLib {i : ℕ} {answer : Bool} (h : (run new cs)[i]? = some (c, answer)) :
    (TokenBucket.run capacity rate new (cs.map Check.toLib))[i]? = some (c.toLib, answer) := by
  rw [← toLib_run, List.getElem?_map, h]
  rfl

/-- A call is only denied if its bucket holds less than a token. -/
theorem refilled_of_denied {i : ℕ} (h : (run new cs)[i]? = some (c, false)) :
    ∃ b, after new (cs.take i) c.key = some b ∧ refilled c.tier c.now b < 1 := by
  have hdenied := (TokenBucket.getElem?_run (getElem?_toLib h)).2
  rw [TokenBucket.check_allowed, decide_eq_false_iff_not, not_le, ← List.map_take, ← toLib_after]
    at hdenied
  have hlevel := refilled_getD c (after new (cs.take i))
  cases hb : after new (cs.take i) c.key with
  | none =>
    -- a new bucket is full
    rw [TokenBucket.level, show c.toLib.key = c.key from rfl, hb] at hdenied
    exact absurd hdenied (not_lt.2 (one_le_capacity c))
  | some b =>
    rw [hb] at hlevel
    exact ⟨b, rfl, hlevel.trans_lt hdenied⟩

/-- A check that is denied may be left out. -/
theorem run_eraseIdx (hsorted : Sorted cs) {i : ℕ} (h : (run new cs)[i]? = some (c, false)) :
    run new (cs.eraseIdx i) = (run new cs).eraseIdx i := by
  obtain ⟨t, huntil, hstart⟩ := hsorted.start
  apply (toLib_injective.prodMap Function.injective_id).list_map
  rw [toLib_run, ← List.eraseIdx_map, ← List.eraseIdx_map, toLib_run]
  exact TokenBucket.run_eraseIdx rate_nonneg huntil hsorted.toLib hstart (getElem?_toLib h)

/-- The checks of a user in a tier are answered as the calls of its key by themselves. -/
theorem map_filter_run (cs : List Check) :
    ((run new cs).filter fun x => x.1.isOf userId tier).map (Prod.map Check.toLib id) =
      TokenBucket.run capacity rate new
        ((cs.filter (Check.isOf userId tier)).map Check.toLib) := by
  have hown : Check.isOf userId tier = fun c => decide (c.key = (userId, tier.val.name)) := by
    funext c
    exact isOf_eq
  have hfilter : ((run new cs).map (Prod.map Check.toLib id)).filter
        (fun x => x.1.key = (userId, tier.val.name)) =
      TokenBucket.run capacity rate new
        ((cs.map Check.toLib).filter fun c => c.key = (userId, tier.val.name)) := by
    rw [toLib_run]
    exact TokenBucket.run_filter rfl
  rw [List.filter_map, List.filter_map] at hfilter
  rw [hown]
  exact hfilter

/-- The checks of others do not matter. -/
theorem run_filter {cs cs' : List Check}
    (h : cs.filter (Check.isOf userId tier) = cs'.filter (Check.isOf userId tier)) :
    (run new cs).filter (fun x => x.1.isOf userId tier) =
      (run new cs').filter fun x => x.1.isOf userId tier := by
  apply (toLib_injective.prodMap Function.injective_id).list_map
  rw [map_filter_run, map_filter_run, h]

/-- The limiter is a token bucket for each user and tier: whatever the calls, as
    long as the clock does not go back,

    * the buckets hold no less than no token, and no more than their tier allows
      in a minute;
    * in a window of `T` seconds, no more calls of a user on a tier are allowed
      than the tier allows in a minute, and what is refilled meanwhile;
    * a call is denied only if the bucket of its user and tier holds less than a
      token;
    * without a call that is denied, the other answers are the same;
    * the answers to a user on a tier are the same as to any calls with the same
      of this user on this tier. -/
theorem run_token_bucket (cs : List Check) (hsorted : Sorted cs) :
    (∀ i key b, after new (cs.take i) key = some b →
      ∃ tier ∈ tiers, key.2 = tier.name ∧ 0 ≤ b.tokens ∧ b.tokens ≤ tier.perMinute) ∧
    (∀ (userId : String) (tier : { tier : Tier // tier ∈ tiers }) (s T : ℚ), 0 ≤ T →
      (allowed userId tier s (s + T) (run new cs) : ℚ) ≤
        tier.val.perMinute + tier.val.perMinute * T / 60) ∧
    (∀ i c, (run new cs)[i]? = some (c, false) →
      ∃ b, after new (cs.take i) c.key = some b ∧ refilled c.tier c.now b < 1) ∧
    (∀ i c, (run new cs)[i]? = some (c, false) →
      run new (cs.eraseIdx i) = (run new cs).eraseIdx i) ∧
    (∀ (cs' : List Check) (userId : String) (tier : { tier : Tier // tier ∈ tiers }), Sorted cs' →
      cs.filter (Check.isOf userId tier) = cs'.filter (Check.isOf userId tier) →
      (run new cs).filter (fun x => x.1.isOf userId tier) =
        (run new cs').filter fun x => x.1.isOf userId tier) := by
  refine ⟨?_, ?_, ?_, ?_, ?_⟩
  · intro i key b hb
    exact bounded_after (cs.take i) hb
  · intro userId tier s T hT
    exact allowed_le hsorted s hT
  · intro i c h
    exact refilled_of_denied h
  · intro i c h
    exact run_eraseIdx hsorted h
  · intro cs' userId tier _ h
    exact run_filter h

/-- Seven rebuilds at once, and one ten seconds later. -/
def rebuilds : List Check :=
  let tier := ⟨tierOf "wiki_rebuild", tierOf_mem "wiki_rebuild"⟩
  List.replicate 7 ⟨0, "u1", tier⟩ ++ [⟨10, "u1", tier⟩]

theorem run_token_bucket_rebuilds :
    (run new rebuilds).map Prod.snd = [true, true, true, true, true, true, false, true] ∧
      run new (rebuilds.eraseIdx 6) = (run new rebuilds).eraseIdx 6 := by
  have hsorted : Sorted rebuilds := by
    unfold Sorted
    decide
  have hdenied : (run new rebuilds)[6]? =
      some (⟨0, "u1", tierOf "wiki_rebuild", tierOf_mem "wiki_rebuild"⟩, false) := by
    decide +kernel
  exact ⟨by decide +kernel, (run_token_bucket rebuilds hsorted).2.2.2.1 6 _ hdenied⟩

end LlmMemory.RateLimiter
