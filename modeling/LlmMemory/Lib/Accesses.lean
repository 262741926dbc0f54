import LlmMemory.Lib.ExpiringMap
import LlmMemory.Lib.Serving

/-!
# Histories of a map of entries that expire

A system whose steps may access a map of `LlmMemory.Lib.ExpiringMap` (`Uses`)
is seen through the list of the accesses of a run, in order (`History`). Each
comes with its time and with the map before and after it (`Access`).

What an access does is a matter of the accesses before it (`Proper`): what is
taken is what was put last under the key, if it still *stands* (`Standing`),
that is, has been neither taken nor evicted since, and has not expired. An
access evicts what it removes without being about it, and before it expires
(`Evicts`).

* `Uses.proper`: every access of every run is proper;
* `Accessed.uses`: so it is for a server, if every operation that is an access
  does it, and the others leave the map.
-/

namespace ExpiringMap

variable {κ α S : Type}

/-- An insertion, or the taking of what there is under a key. -/
inductive Act (κ α : Type)
  | put (key : κ) (a : α)
  | take (key : κ) (r : Option α)
  deriving DecidableEq, Repr

/-- The key of an access. -/
def Act.key : Act κ α → κ
  | put key _ => key
  | take key _ => key

/-- An access to a map, with its time, and the map before and after it. -/
structure Access (κ α : Type) where
  now : Int
  act : Act κ α
  before : List (κ × α)
  after : List (κ × α)
  deriving DecidableEq, Repr

section Definitions

variable (exp : α → Int) (cap : ℕ)

/-- The access removes an entry of another key that has not expired. -/
def Evicts (x : Access κ α) (e : κ × α) : Prop :=
  (e ∈ x.before ∧ x.now < exp e.2) ∧ x.act.key ≠ e.1 ∧ e ∉ x.after

/-- The access leaves an entry alone: it neither replaces, takes nor evicts it. -/
def Spares (x : Access κ α) (key : κ) (a : α) : Prop :=
  (∀ b, x.act ≠ .put key b) ∧ (∀ b, x.act ≠ .take key (some b)) ∧ ¬ Evicts exp x (key, a)

/-- After the accesses `h`, the last insertion under `key` is that of `a`, and
    all accesses since have spared it. -/
def Standing (h : List (Access κ α)) (key : κ) (a : α) : Prop :=
  ∃ h₁ x h₂, h = h₁ ++ x :: h₂ ∧ x.act = .put key a ∧ ∀ y ∈ h₂, Spares exp y key a

/-- The access `x`, after the accesses `h`, is one to a map of at most `cap`
    entries, each of which can be taken once, until it expires. -/
structure Proper (h : List (Access κ α)) (x : Access κ α) : Prop where
  /-- The capacity is not exceeded. -/
  before_le : x.before.length ≤ cap
  after_le : x.after.length ≤ cap
  /-- What stands is taken, and nothing else. -/
  taken_iff : ∀ key r, x.act = .take key r →
    ∀ a, r = some a ↔ Standing exp h key a ∧ x.now < exp a
  /-- What has been taken is not taken again, before there is another insertion. -/
  once : ∀ h₁ y h₂, h = h₁ ++ y :: h₂ → ∀ key a, y.act = .take key (some a) →
    (∀ z ∈ h₂, ∀ b, z.act ≠ .put key b) → ∀ r, x.act = .take key r → r = none
  /-- Only an insertion evicts, if there are `cap` entries that have not
      expired, and then one of those that expire first. -/
  evicted : ∀ e, Evicts exp x e → (∃ key a, x.act = .put key a) ∧
    (retain exp x.now x.before).length = cap ∧
    ∀ e' ∈ x.before, x.now < exp e'.2 → exp e.2 ≤ exp e'.2
  /-- It evicts one entry at most. -/
  evicted_unique : ∀ e e', Evicts exp x e → Evicts exp x e' → e = e'

/-- The accesses to the map in a run, by the steps `step`, some of which are
    accesses. -/
inductive History (init : S → Prop) (step : S → Option (Act κ α) → S → Prop) (now : S → Int)
    (map : S → List (κ × α)) : S → List (Access κ α) → Prop
  | init {s : S} (h : init s) : History init step now map s []
  | access {s s' : S} {h : List (Access κ α)} {act : Act κ α} (hr : History init step now map s h)
      (hs : step s (some act) s') :
      History init step now map s' (h ++ [⟨now s, act, map s, map s'⟩])
  | other {s s' : S} {h : List (Access κ α)} (hr : History init step now map s h)
      (hs : step s none s') : History init step now map s' h

/-- The access changes the map `m` to `m'`, at the time `now`. -/
inductive Does [DecidableEq κ] (now : Int) (m : List (κ × α)) : Act κ α → List (κ × α) → Prop
  | put {victim key : κ} {a : α} {m' : List (κ × α)} (h : put exp cap victim now key a m = some m') :
      Does now m (.put key a) m'
  | take {key : κ} : Does now m (.take key (take exp now key m).1) (take exp now key m).2

/-- The steps access the map as one whose entries expire, and let time pass. -/
structure Uses [DecidableEq κ] (init : S → Prop) (step : S → Option (Act κ α) → S → Prop)
    (now : S → Int)
    (map : S → List (κ × α)) : Prop where
  init : ∀ s, init s → map s = []
  mono : ∀ s x s', step s x s' → now s ≤ now s'
  access : ∀ s act s', step s (some act) s' → Does exp cap (now s) (map s) act (map s')
  other : ∀ s s', step s none s' → map s' = map s

end Definitions

/-! ## What stands -/

section Standing

variable {exp : α → Int} {h g : List (Access κ α)} {x y : Access κ α} {key : κ}
  {a : α}

theorem not_standing_nil : ¬ Standing exp ([] : List (Access κ α)) key a := by
  rintro ⟨h₁, x, h₂, he, -⟩
  cases h₁ <;> cases he

/-- What stands after one more access is what it put, or stood before and was
    spared. -/
theorem standing_snoc : Standing exp (h ++ [x]) key a ↔
    x.act = .put key a ∨ (Standing exp h key a ∧ Spares exp x key a) := by
  constructor
  · rintro ⟨h₁, y, h₂, he, hy, hs⟩
    rcases List.eq_nil_or_concat h₂ with rfl | ⟨h₂, z, rfl⟩
    · obtain ⟨-, hxy⟩ := List.append_inj' he rfl
      cases hxy
      exact .inl hy
    · rw [List.concat_eq_append, ← List.cons_append, ← List.append_assoc] at he
      obtain ⟨rfl, hxz⟩ := List.append_inj' he rfl
      cases hxz
      exact .inr ⟨⟨h₁, y, h₂, rfl, hy, fun w hw => hs w (by simp [hw])⟩, hs x (by simp)⟩
  · rintro (hx | ⟨⟨h₁, y, h₂, rfl, hy, hs⟩, hx⟩)
    · exact ⟨h, x, [], rfl, hx, by simp⟩
    · refine ⟨h₁, y, h₂ ++ [x], by simp, hy, fun z hz => ?_⟩
      rcases List.mem_append.1 hz with hz | hz
      · exact hs z hz
      · rw [List.mem_singleton.1 hz]
        exact hx

/-- Nothing stands after it was taken, unless there is another insertion. -/
theorem not_standing_of_taken {b : α} (hy : y.act = .take key (some b)) (g' : List (Access κ α))
    (hg' : ∀ z ∈ g', ∀ c, z.act ≠ .put key c) : ¬ Standing exp (g ++ y :: g') key a := by
  induction g' using List.reverseRecOn with
  | nil =>
    intro hst
    rcases standing_snoc.1 hst with hput | ⟨-, hsp⟩
    · rw [hy] at hput
      cases hput
    · exact hsp.2.1 b hy
  | append_singleton g' z ih =>
    intro hst
    rw [← List.cons_append, ← List.append_assoc] at hst
    rcases standing_snoc.1 hst with hput | ⟨hst, -⟩
    · exact hg' z (by simp) a hput
    · exact ih (fun w hw => hg' w (by simp [hw])) hst

end Standing

/-! ## Runs -/

section Runs

variable [DecidableEq κ] {exp : α → Int} {cap : ℕ} {now : Int} {h : List (Access κ α)}
  {act : Act κ α} {m m' : List (κ × α)}

/-- What holds at the time `now`, after the accesses `h`: the map keeps to its
    capacity and has one entry for each key; what it holds stands, and what
    stands it holds, until it expires. -/
structure Inv (exp : α → Int) (cap : ℕ) (now : Int) (h : List (Access κ α))
    (m : List (κ × α)) : Prop where
  length_le : m.length ≤ cap
  keys : (m.map (·.1)).Nodup
  standing : ∀ key a, (key, a) ∈ m → Standing exp h key a
  mem : ∀ key a, Standing exp h key a → now < exp a → (key, a) ∈ m

omit [DecidableEq κ] in
theorem Inv.mono {now' : Int} (hi : Inv exp cap now h m) (hle : now ≤ now') :
    Inv exp cap now' h m where
  length_le := hi.length_le
  keys := hi.keys
  standing := hi.standing
  mem key a hs hexp := hi.mem key a hs (Int.lt_of_le_of_lt hle hexp)

/-- An entry after an access was put by it, or is one of another key that it
    has left. -/
theorem Does.mem (hd : Does exp cap now m act m') {e : κ × α} (he : e ∈ m') :
    act = .put e.1 e.2 ∨ (e ∈ m ∧ act.key ≠ e.1) := by
  cases hd with
  | put hp =>
    rcases mem_put hp he with rfl | ⟨hm, hk⟩
    · exact .inl rfl
    · exact .inr ⟨hm, hk.symm⟩
  | take => exact .inr ⟨(mem_take he).1, (mem_take he).2.symm⟩

/-- An access leaves out an entry of another key that has not expired only if
    it puts another into a full map, which loses at most its victim. -/
theorem Does.evicts (hd : Does exp cap now m act m') (hm : (m.map (·.1)).Nodup) :
    ∃ victim, ∀ e, Evicts exp ⟨now, act, m, m'⟩ e → e.1 = victim ∧
      (∃ key a, act = .put key a) ∧ cap ≤ (retain exp now m).length ∧
      ∀ e' ∈ m, now < exp e'.2 → exp e.2 ≤ exp e'.2 := by
  cases hd with
  | @put victim key a _ hp =>
    refine ⟨victim, fun e he => ?_⟩
    obtain ⟨hv, hfull, hmin⟩ := eq_victim_of_put hp hm he.1.1 he.1.2 he.2.1 he.2.2
    exact ⟨hv, ⟨key, a, rfl⟩, hfull, hmin⟩
  | @take key =>
    refine ⟨key, fun e he => absurd ?_ he.2.2⟩
    exact mem_remove.2 ⟨mem_retain.2 he.1, he.2.1.symm⟩

/-- An access keeps the map within its capacity. -/
theorem Does.length_le (hd : Does exp cap now m act m') (hm : m.length ≤ cap) :
    m'.length ≤ cap := by
  cases hd with
  | put hp => exact length_put hp hm
  | take =>
    have hret : (retain exp now m).length ≤ m.length := List.length_filter_le _ _
    exact (List.length_filter_le _ _).trans (hret.trans hm)

/-- An access keeps the keys distinct. -/
theorem Does.keys (hd : Does exp cap now m act m') (hm : (m.map (·.1)).Nodup) :
    (m'.map (·.1)).Nodup := by
  cases hd with
  | put hp => exact keys_put hp hm
  | take => exact keys_take hm

/-- What is taken is what stands. -/
theorem Inv.taken_iff (hi : Inv exp cap now h m) {key : κ} {a : α} :
    (take exp now key m).1 = some a ↔ Standing exp h key a ∧ now < exp a := by
  rw [take, get_eq_some_iff (keys_retain hi.keys), mem_retain]
  constructor
  · rintro ⟨hmem, hexp⟩
    exact ⟨hi.standing key a hmem, hexp⟩
  · rintro ⟨hs, hexp⟩
    exact ⟨hi.mem key a hs hexp, hexp⟩

/-- An access to a map whose history is as it should be. -/
theorem Inv.proper (hi : Inv exp cap now h m) (hd : Does exp cap now m act m') :
    Proper exp cap h ⟨now, act, m, m'⟩ := by
  have htaken : ∀ key r, act = .take key r → ∀ a, r = some a ↔ Standing exp h key a ∧ now < exp a := by
    intro key r hact a
    cases hd with
    | put hp => cases hact
    | take => cases hact; exact hi.taken_iff
  obtain ⟨victim, hev⟩ := hd.evicts hi.keys
  refine ⟨hi.length_le, hd.length_le hi.length_le, htaken, ?_, fun e he => ?_, fun e e' he he' => ?_⟩
  · rintro h₁ y h₂ rfl key a hy hput r hact
    cases r with
    | none => rfl
    | some b => exact absurd ((htaken key _ hact b).1 rfl).1 (not_standing_of_taken hy h₂ hput)
  · obtain ⟨-, hput, hfull, hmin⟩ := hev e he
    have hret : (retain exp now m).length ≤ m.length := List.length_filter_le _ _
    exact ⟨hput, Nat.le_antisymm (hret.trans hi.length_le) hfull, hmin⟩
  · exact eq_of_key hi.keys he.1.1 he'.1.1 ((hev e he).1.trans (hev e' he').1.symm)

theorem Inv.step (hi : Inv exp cap now h m) (hd : Does exp cap now m act m') :
    Inv exp cap now (h ++ [⟨now, act, m, m'⟩]) m' where
  length_le := hd.length_le hi.length_le
  keys := hd.keys hi.keys
  standing key a hmem := by
    refine standing_snoc.2 ?_
    rcases hd.mem hmem with hput | ⟨hm, hk⟩
    · exact .inl hput
    · refine .inr ⟨hi.standing key a hm, ?_, ?_, fun he => he.2.2 hmem⟩
      · rintro b rfl
        exact hk rfl
      · rintro b rfl
        exact hk rfl
  mem key a hs hexp := by
    rcases standing_snoc.1 hs with hput | ⟨hs₀, hput, htake, hev⟩
    · cases hd with
      | put hp => cases hput; exact mem_of_put hp
      | take => cases hput
    · have hm := hi.mem key a hs₀ hexp
      by_contra hgone
      refine hev ⟨⟨hm, hexp⟩, fun hk => ?_, hgone⟩
      -- the access is about this very key: it took the entry, or replaced it
      cases hd with
      | @put _ key' b _ hp =>
        obtain rfl : key' = key := hk
        exact hput b rfl
      | @take key' =>
        obtain rfl : key' = key := hk
        exact htake a (congrArg (Act.take key') (hi.taken_iff.2 ⟨hs₀, hexp⟩))

variable {S : Type} {init : S → Prop} {step : S → Option (Act κ α) → S → Prop} {clock : S → Int}
  {map : S → List (κ × α)} {s : S}

/-- After a run, the map is as its history has it. -/
theorem Uses.inv (hu : Uses exp cap init step clock map) (hr : History init step clock map s h) :
    Inv exp cap (clock s) h (map s) ∧ Logs.Grounded (Proper exp cap) h := by
  induction hr with
  | init hs =>
    rw [hu.init _ hs]
    refine ⟨⟨Nat.zero_le _, List.nodup_nil, fun key a hmem => ?_, fun key a hst => ?_⟩, .nil⟩
    · cases hmem
    · exact absurd hst not_standing_nil
  | @access s s' h act _ hs ih =>
    have hd := hu.access _ _ _ hs
    exact ⟨(ih.1.step hd).mono (hu.mono _ _ _ hs), ih.2.snoc (ih.1.proper hd)⟩
  | other _ hs ih =>
    rw [hu.other _ _ hs]
    exact ⟨ih.1.mono (hu.mono _ _ _ hs), ih.2⟩

/-- Every access of every run is proper. -/
theorem Uses.proper (hu : Uses exp cap init step clock map)
    (hr : History init step clock map s h) : Logs.Grounded (Proper exp cap) h :=
  (hu.inv hr).2

end Runs

/-! ## Servers -/

section Servers

open Serving Effects

variable {E : Sig} {Req β In W : Type}

/-- The changes of a server as steps, `act` giving the accesses among its
    operations. -/
def Changes (sv : Server E Req β In W S) (act : (Σ o : E.Op, E.Ans o) → Option (Act κ α))
    (s : S) (x : Option (Act κ α)) (s' : S) : Prop :=
  ∃ c, sv.Change s c s' ∧ x = c.bind act

/-- What is not an access leaves the map, and only the world lets time pass. -/
structure Accessed [DecidableEq κ] (exp : α → Int) (cap : ℕ) (sv : Server E Req β In W S)
    (act : (Σ o : E.Op, E.Ans o) → Option (Act κ α)) (now : S → Int)
    (map : S → List (κ × α)) : Prop where
  perform : ∀ {n req input o r s s'}, sv.perform n req input o s = some (r, s') →
    now s' = now s ∧ ((∃ a, act ⟨o, r⟩ = some a ∧ Does exp cap (now s) (map s) a (map s')) ∨
      (act ⟨o, r⟩ = none ∧ map s' = map s))
  finish : ∀ n req a s, now (sv.finish n req a s) = now s ∧ map (sv.finish n req a s) = map s
  world : ∀ {w s s'}, sv.world w s = some s' → now s ≤ now s' ∧ map s' = map s

/-- A map that only operations access is used as its accesses say. -/
theorem Accessed.uses [DecidableEq κ] {exp : α → Int} {cap : ℕ} {sv : Server E Req β In W S}
    {act : (Σ o : E.Op, E.Ans o) → Option (Act κ α)} {init : S → Prop} {now : S → Int}
    {map : S → List (κ × α)} (ha : Accessed exp cap sv act now map)
    (hinit : ∀ s, init s → map s = []) : Uses exp cap init (Changes sv act) now map where
  init := hinit
  mono s x s' := by
    rintro ⟨c, hc, -⟩
    cases hc with
    | op h => exact (ha.perform h).1.ge
    | finish => exact (ha.finish _ _ _ s).1.ge
    | world h => exact (ha.world h).1
  access s a s' := by
    rintro ⟨c, hc, hx⟩
    cases hc with
    | op h =>
      rcases (ha.perform h).2 with ⟨a', ha', hd⟩ | ⟨hn, -⟩
      · cases hx.trans ha'
        exact hd
      · cases hx.trans hn
    | finish => cases hx
    | world h => cases hx
  other s s' := by
    rintro ⟨c, hc, hx⟩
    cases hc with
    | op h =>
      rcases (ha.perform h).2 with ⟨a', ha', -⟩ | ⟨-, hm⟩
      · cases hx.trans ha'
      · exact hm
    | finish => exact (ha.finish _ _ _ s).2
    | world h => exact (ha.world h).2

end Servers

end ExpiringMap
