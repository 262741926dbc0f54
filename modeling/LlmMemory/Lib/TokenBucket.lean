import Mathlib.Algebra.Order.Field.Basic
import Mathlib.Data.List.Basic
import Mathlib.Logic.Function.Basic
import Mathlib.Tactic.Linarith
import Mathlib.Tactic.Ring

/-!
# Token buckets

A *bucket* holds tokens, up to a capacity, and is refilled at a rate. Each key
has a bucket, which is full at first. A call takes a token out of the bucket of
its key, if it holds one, and is denied otherwise (`check`).

All that matters of the buckets is the *level* of each at any time to come
(`level`): a call that is denied changes no level, and a call changes no level
of another key.

* `Good.after`: the tokens stay between none and the capacity;
* `allowed_window_le`: in a window of time, no more calls of a key are allowed
  than its capacity and what is refilled meanwhile;
* `run_eraseIdx`: a call that is denied makes no difference to the other answers;
* `run_filter`: the answers for a key only depend on the calls of the key.
-/

namespace TokenBucket

variable {K κ : Type} [Field K] [LinearOrder K]

/-- A bucket: its tokens, and when they were counted. -/
structure Bucket (K : Type) where
  tokens : K
  lastRefill : K
  deriving DecidableEq, Repr

/-- A call of a key, at a time. -/
structure Call (K κ : Type) where
  now : K
  key : κ
  deriving DecidableEq, Repr

/-- The buckets of all keys. -/
abbrev Buckets (K κ : Type) : Type := κ → Option (Bucket K)

section Definitions

variable (cap rate : κ → K)

/-- The tokens of the bucket of a key at a time. -/
def level (m : Buckets K κ) (key : κ) (now : K) : K :=
  match m key with
  | some b => min (b.tokens + max 0 (now - b.lastRefill) * rate key) (cap key)
  | none => cap key

variable [DecidableEq κ]

/-- Whether a call is allowed, and the buckets after it. -/
def check (c : Call K κ) (m : Buckets K κ) : Bool × Buckets K κ :=
  let tokens := level cap rate m c.key c.now
  if 1 ≤ tokens then (true, Function.update m c.key (some ⟨tokens - 1, c.now⟩))
  else (false, Function.update m c.key (some ⟨tokens, c.now⟩))

/-- The calls with their answers. -/
def run (m : Buckets K κ) : List (Call K κ) → List (Call K κ × Bool)
  | [] => []
  | c :: cs => (c, (check cap rate c m).1) :: run (check cap rate c m).2 cs

/-- The buckets after the calls. -/
def after (m : Buckets K κ) : List (Call K κ) → Buckets K κ
  | [] => m
  | c :: cs => after (check cap rate c m).2 cs

/-- The tokens that a call takes. -/
def taken (c : Call K κ) (m : Buckets K κ) : K := if (check cap rate c m).1 then 1 else 0

end Definitions

/-- The buckets hold no less than no tokens, and no more than their capacity. -/
def Good (cap : κ → K) (m : Buckets K κ) : Prop :=
  ∀ key b, m key = some b → 0 ≤ b.tokens ∧ b.tokens ≤ cap key

/-- No bucket has been refilled after this time. -/
def Until (t : K) (m : Buckets K κ) : Prop := ∀ key b, m key = some b → b.lastRefill ≤ t

/-- No call is before an earlier one. -/
def Sorted (cs : List (Call K κ)) : Prop := cs.Pairwise fun c c' => c.now ≤ c'.now

variable {cap rate : κ → K} {m m' : Buckets K κ} {c : Call K κ} {cs : List (Call K κ)} {key : κ}
  {t t' : K}

/-- A bucket is never over its capacity. -/
theorem level_le : level cap rate m key t ≤ cap key := by
  unfold level
  split
  · exact min_le_right _ _
  · exact le_rfl

theorem level_congr (h : m key = m' key) : level cap rate m key t = level cap rate m' key t := by
  unfold level
  rw [h]

/-! ## Calls -/

section Calls

variable [DecidableEq κ]

/-- A check writes the bucket of its key only. -/
theorem check_eq : (check cap rate c m).2 =
    Function.update m c.key (some ⟨level cap rate m c.key c.now - taken cap rate c m, c.now⟩) := by
  unfold taken check
  by_cases h : 1 ≤ level cap rate m c.key c.now
  · simp [h]
  · simp [h]

/-- A call is allowed if there is a token. -/
theorem check_allowed : (check cap rate c m).1 = decide (1 ≤ level cap rate m c.key c.now) := by
  unfold check
  by_cases h : 1 ≤ level cap rate m c.key c.now
  · simp [h]
  · simp [h]

/-- A call leaves the buckets of other keys alone. -/
theorem check_ne (hne : key ≠ c.key) : (check cap rate c m).2 key = m key := by
  rw [check_eq, Function.update_of_ne hne]

/-- The bucket of the key after a check. -/
theorem check_self :
    (check cap rate c m).2 c.key =
      some ⟨level cap rate m c.key c.now - taken cap rate c m, c.now⟩ := by
  rw [check_eq, Function.update_self]

/-- A bucket is one of a call, or was there before. -/
theorem key_of_after {b : Bucket K} (hb : after cap rate m cs key = some b) :
    (∃ c ∈ cs, c.key = key) ∨ m key = some b := by
  induction cs generalizing m with
  | nil => exact .inr hb
  | cons c cs ih =>
    rcases ih hb with ⟨c', hc', hkey⟩ | hb
    · exact .inl ⟨c', List.mem_cons_of_mem c hc', hkey⟩
    · by_cases hk : key = c.key
      · exact .inl ⟨c, List.mem_cons_self, hk.symm⟩
      · exact .inr ((check_ne hk).symm.trans hb)

/-- A check brings the buckets up to its time. -/
theorem Until.check (hm : Until t m) (ht : t ≤ c.now) : Until c.now (check cap rate c m).2 := by
  intro key b hb
  by_cases hk : key = c.key
  · rw [hk, check_self] at hb
    cases hb
    exact le_rfl
  · rw [check_ne hk] at hb
    exact (hm key b hb).trans ht

/-! ## Answers -/

/-- The calls are answered in their order. -/
theorem map_fst_run (cap rate : κ → K) (m : Buckets K κ) (cs : List (Call K κ)) :
    (run cap rate m cs).map Prod.fst = cs := by
  induction cs generalizing m with
  | nil => rfl
  | cons c cs ih => exact congrArg _ (ih _)

/-- An answer is that of the check after the calls before it. -/
theorem getElem?_run {i : ℕ} {b : Bool} (h : (run cap rate m cs)[i]? = some (c, b)) :
    cs[i]? = some c ∧ (check cap rate c (after cap rate m (cs.take i))).1 = b := by
  induction cs generalizing m i with
  | nil => simp [run] at h
  | cons c' cs ih =>
    cases i with
    | zero =>
      rw [run, List.getElem?_cons_zero, Option.some_inj, Prod.mk.injEq] at h
      obtain ⟨rfl, hb⟩ := h
      exact ⟨rfl, hb⟩
    | succ i => exact ih h

/-- An answer is to one of the calls. -/
theorem mem_of_run {x : Call K κ × Bool} (hx : x ∈ run cap rate m cs) : x.1 ∈ cs := by
  rw [← map_fst_run cap rate m cs]
  exact List.mem_map_of_mem hx

/-- How many calls of a key are allowed in a window of time. -/
def allowed (key : κ) (t t' : K) (answers : List (Call K κ × Bool)) : ℕ :=
  answers.countP fun x => x.2 && x.1.key = key && t ≤ x.1.now && x.1.now ≤ t'

omit [Field K] in
/-- Calls after an interval are none of its calls. -/
theorem allowed_eq_zero {s s' : K} {answers : List (Call K κ × Bool)}
    (h : ∀ x ∈ answers, s' < x.1.now) : allowed key s s' answers = 0 := by
  rw [allowed, List.countP_eq_zero]
  intro x hx hin
  simp only [Bool.and_eq_true, decide_eq_true_eq] at hin
  exact absurd hin.2 (not_le.2 (h x hx))

omit [Field K] in
theorem allowed_cons_le {s s' : K} {b : Bool} {answers : List (Call K κ × Bool)} :
    allowed key s s' ((c, b) :: answers) ≤
      allowed key s s' answers + (if b ∧ c.key = key then 1 else 0) := by
  unfold allowed
  rw [List.countP_cons]
  split
  · rename_i hin
    simp only [Bool.and_eq_true, decide_eq_true_eq] at hin
    rw [if_pos hin.1.1]
  · exact Nat.le_add_right _ _

/-- Once the window is over, no more calls are in it. -/
theorem allowed_over {s s' : K} (hsorted : Sorted (c :: cs)) (hs : s' < c.now) :
    allowed key s s' (run cap rate m (c :: cs)) = 0 := by
  rw [Sorted, List.pairwise_cons] at hsorted
  apply allowed_eq_zero
  intro x hx
  rcases List.mem_cons.1 (mem_of_run hx) with h | h
  · rw [h]
    exact hs
  · exact hs.trans_le (hsorted.1 _ h)

end Calls

/-! ## Levels -/

section Levels

variable [IsStrictOrderedRing K]

theorem level_nonneg (hcap : 0 ≤ cap key) (hrate : 0 ≤ rate key) (hm : Good cap m) :
    0 ≤ level cap rate m key t := by
  unfold level
  split
  · rename_i b hb
    have hrefill := mul_nonneg (le_max_left 0 (t - b.lastRefill)) hrate
    exact le_min (add_nonneg (hm key b hb).1 hrefill) hcap
  · exact hcap

/-- A bucket refills with the time that passes. -/
theorem level_later (hrate : 0 ≤ rate key) (hm : Until t m) (ht : t ≤ t') :
    level cap rate m key t' = min (level cap rate m key t + (t' - t) * rate key) (cap key) := by
  have hpos : 0 ≤ (t' - t) * rate key := mul_nonneg (sub_nonneg.2 ht) hrate
  unfold level
  split
  · rename_i b hb
    have hlast := hm key b hb
    have hsum : b.tokens + (t' - b.lastRefill) * rate key =
        b.tokens + (t - b.lastRefill) * rate key + (t' - t) * rate key := by ring
    rw [max_eq_right (by linarith), max_eq_right (by linarith), hsum, ← min_add_add_right,
      min_assoc, min_eq_right (le_add_of_nonneg_right hpos)]
  · exact (min_eq_right (by linarith)).symm

/-- A level grows at the rate at most. -/
theorem level_le_later (hrate : 0 ≤ rate key) (hm : Until t m) (ht : t ≤ t') :
    level cap rate m key t' ≤ level cap rate m key t + (t' - t) * rate key := by
  rw [level_later hrate hm ht]
  exact min_le_left _ _

variable [DecidableEq κ]

/-- After a call, the bucket of its key refills from what it has left. -/
theorem level_check (ht : c.now ≤ t) : level cap rate (check cap rate c m).2 c.key t =
    min (level cap rate m c.key c.now - taken cap rate c m + (t - c.now) * rate c.key)
      (cap c.key) := by
  rw [level, check_self]
  dsimp only
  rw [max_eq_right (sub_nonneg.2 ht)]

/-- A call that is allowed finds a token to take. -/
theorem taken_le (hlevel : 0 ≤ level cap rate m c.key c.now) :
    0 ≤ taken cap rate c m ∧ taken cap rate c m ≤ level cap rate m c.key c.now := by
  unfold taken
  rw [check_allowed]
  by_cases h : 1 ≤ level cap rate m c.key c.now
  · simp [h]
  · simpa [h] using hlevel

/-- A check keeps the buckets good. -/
theorem Good.check (hm : Good cap m) (hcap : ∀ key, 0 ≤ cap key) (hrate : ∀ key, 0 ≤ rate key) :
    Good cap (check cap rate c m).2 := by
  intro key b hb
  by_cases hk : key = c.key
  · rw [hk, check_self] at hb
    cases hb
    have htaken := taken_le (level_nonneg (t := c.now) (hcap c.key) (hrate c.key) hm)
    have hle : level cap rate m c.key c.now ≤ cap c.key := level_le
    rw [hk]
    constructor
    · linarith
    · linarith
  · rw [check_ne hk] at hb
    exact hm key b hb

theorem Good.after (hm : Good cap m) (hcap : ∀ key, 0 ≤ cap key) (hrate : ∀ key, 0 ≤ rate key)
    (cs : List (Call K κ)) : Good cap (after cap rate m cs) := by
  induction cs generalizing m with
  | nil => exact hm
  | cons c cs ih => exact ih (hm.check hcap hrate)

/-! ## Windows -/

/-- What a call takes is missing from the level of its key. -/
theorem level_check_add (cap rate : κ → K) (m : Buckets K κ) (c : Call K κ) (key : κ) :
    level cap rate (check cap rate c m).2 key c.now +
      (if (check cap rate c m).1 ∧ c.key = key then 1 else 0) ≤ level cap rate m key c.now := by
  by_cases hk : c.key = key
  · subst hk
    rw [level_check le_rfl]
    have hmin := min_le_left (level cap rate m c.key c.now - taken cap rate c m +
      (c.now - c.now) * rate c.key) (cap c.key)
    simp only [and_true]
    rw [← taken]
    linarith
  · rw [level_congr (check_ne fun h => hk h.symm)]
    simp [hk]

/-- The calls of a key until the time `t'` take what its bucket held at the
    time `t`, and what is refilled meanwhile. -/
theorem allowed_le (hcap : ∀ key, 0 ≤ cap key) (hrate : ∀ key, 0 ≤ rate key) (hgood : Good cap m)
    (hm : Until t m) (hsorted : Sorted cs) (hcs : ∀ c ∈ cs, t ≤ c.now) (ht : t ≤ t') {t₀ : K} :
    (allowed key t₀ t' (run cap rate m cs) : K) ≤
      level cap rate m key t + (t' - t) * rate key := by
  have hlevel := level_nonneg (t := t) (hcap key) (hrate key) hgood
  have hrefill := mul_nonneg (sub_nonneg.2 ht) (hrate key)
  induction cs generalizing m t with
  | nil =>
    rw [run, allowed, List.countP_nil, Nat.cast_zero]
    linarith
  | cons c cs ih =>
    have hall := hsorted
    rw [Sorted, List.pairwise_cons] at hsorted
    rw [List.forall_mem_cons] at hcs
    by_cases hnow : c.now ≤ t'
    · have hgood' : Good cap (TokenBucket.check cap rate c m).2 := hgood.check hcap hrate
      have hrest := ih hgood' (hm.check hcs.1) hsorted.2 hsorted.1 hnow
        (level_nonneg (hcap key) (hrate key) hgood')
        (mul_nonneg (sub_nonneg.2 hnow) (hrate key))
      have hlater : level cap rate m key c.now ≤
          level cap rate m key t + (c.now - t) * rate key := level_le_later (hrate key) hm hcs.1
      have hcheck := level_check_add cap rate m c key
      have hcons : (allowed key t₀ t' (run cap rate m (c :: cs)) : K) ≤
          allowed key t₀ t' (run cap rate (TokenBucket.check cap rate c m).2 cs) +
            (if (TokenBucket.check cap rate c m).1 ∧ c.key = key then 1 else 0) := by
        exact_mod_cast allowed_cons_le
      linarith
    · -- the window is over
      rw [allowed_over hall (not_le.1 hnow), Nat.cast_zero]
      linarith

/-- In a window of time, no more calls of a key are allowed than its capacity
    and what is refilled meanwhile. -/
theorem allowed_window_le (hcap : ∀ key, 0 ≤ cap key) (hrate : ∀ key, 0 ≤ rate key)
    (hgood : Good cap m) (hm : Until t m) (hsorted : Sorted cs) (hcs : ∀ c ∈ cs, t ≤ c.now)
    {s s' : K} (hs : s ≤ s') :
    (allowed key s s' (run cap rate m cs) : K) ≤ cap key + (s' - s) * rate key := by
  have hrefill := mul_nonneg (sub_nonneg.2 hs) (hrate key)
  have hpos := hcap key
  induction cs generalizing m t with
  | nil =>
    rw [run, allowed, List.countP_nil, Nat.cast_zero]
    linarith
  | cons c cs ih =>
    have hall := hsorted
    rw [Sorted, List.pairwise_cons] at hsorted
    rw [List.forall_mem_cons] at hcs
    rcases lt_or_ge c.now s with hnow | hnow
    · -- the window has not begun
      have hskip : allowed key s s' (run cap rate m (c :: cs)) =
          allowed key s s' (run cap rate (TokenBucket.check cap rate c m).2 cs) := by
        rw [run, allowed, List.countP_cons_of_neg (by simp [hnow]), allowed]
      rw [hskip]
      exact ih (hgood.check hcap hrate) (hm.check hcs.1) hsorted.2 hsorted.1
    -- from the first check in the window on, the bucket is at most full
    · rcases le_or_gt c.now s' with hnow' | hnow'
      · have huntil : Until c.now m := fun key b hb => (hm key b hb).trans hcs.1
        have hcs' : ∀ c' ∈ c :: cs, c.now ≤ c'.now :=
          List.forall_mem_cons.2 ⟨le_rfl, hsorted.1⟩
        have hbound : (allowed key s s' (run cap rate m (c :: cs)) : K) ≤
            level cap rate m key c.now + (s' - c.now) * rate key :=
          allowed_le hcap hrate hgood huntil hall hcs' hnow'
        have hfull : level cap rate m key c.now ≤ cap key := level_le
        have hless : (s' - c.now) * rate key ≤ (s' - s) * rate key :=
          mul_le_mul_of_nonneg_right (sub_le_sub_left hnow s') (hrate key)
        linarith
      · rw [allowed_over hall hnow', Nat.cast_zero]
        linarith

/-! ## Denied calls -/

/-- The keys have the same levels in the maps from this time on. -/
def Alike (cap rate : κ → K) (t : K) (m m' : Buckets K κ) : Prop :=
  ∀ key t', t ≤ t' → level cap rate m key t' = level cap rate m' key t'

/-- Buckets that are alike answer a call alike, and stay alike. -/
theorem Alike.check (h : Alike cap rate t m m') (ht : t ≤ c.now) :
    (check cap rate c m).1 = (check cap rate c m').1 ∧
      Alike cap rate c.now (TokenBucket.check cap rate c m).2
        (TokenBucket.check cap rate c m').2 := by
  have hlevel := h c.key c.now ht
  have hanswer : (TokenBucket.check cap rate c m).1 = (TokenBucket.check cap rate c m').1 := by
    rw [check_allowed, check_allowed, hlevel]
  refine ⟨hanswer, ?_⟩
  intro key t' ht'
  by_cases hk : key = c.key
  · rw [hk, level_check ht', level_check ht', taken, taken, hlevel, hanswer]
  · rw [level_congr (check_ne hk), level_congr (check_ne hk)]
    exact h key t' (ht.trans ht')

theorem Alike.run (h : Alike cap rate t m m') (hsorted : Sorted cs)
    (hcs : ∀ c ∈ cs, t ≤ c.now) : run cap rate m cs = run cap rate m' cs := by
  induction cs generalizing m m' t with
  | nil => rfl
  | cons c cs ih =>
    rw [Sorted, List.pairwise_cons] at hsorted
    rw [List.forall_mem_cons] at hcs
    obtain ⟨hanswer, hnext⟩ := h.check hcs.1
    rw [TokenBucket.run, TokenBucket.run, hanswer, ih hnext hsorted.2 hsorted.1]

/-- A call that is denied leaves the levels as they are. -/
theorem alike_of_denied (hrate : ∀ key, 0 ≤ rate key) (hm : Until t m) (ht : t ≤ c.now)
    (hdenied : (check cap rate c m).1 = false) :
    Alike cap rate c.now (check cap rate c m).2 m := by
  intro key t' ht'
  by_cases hk : key = c.key
  · have huntil : Until c.now m := fun key b hb => (hm key b hb).trans ht
    rw [hk, level_check ht', level_later (hrate c.key) huntil ht', taken, hdenied]
    simp
  · exact level_congr (check_ne hk)

/-- A call that is denied makes no difference to the later ones. -/
theorem run_denied (hrate : ∀ key, 0 ≤ rate key) (hm : Until t m) (ht : t ≤ c.now)
    (hdenied : (check cap rate c m).1 = false) (hsorted : Sorted cs)
    (hcs : ∀ c' ∈ cs, c.now ≤ c'.now) :
    run cap rate (check cap rate c m).2 cs = run cap rate m cs :=
  (alike_of_denied hrate hm ht hdenied).run hsorted hcs

/-- Without a call that is denied, the other answers are the same. -/
theorem run_eraseIdx (hrate : ∀ key, 0 ≤ rate key) (hm : Until t m) (hsorted : Sorted cs)
    (hcs : ∀ c ∈ cs, t ≤ c.now) {i : ℕ} (hi : (run cap rate m cs)[i]? = some (c, false)) :
    run cap rate m (cs.eraseIdx i) = (run cap rate m cs).eraseIdx i := by
  induction cs generalizing m t i with
  | nil => rfl
  | cons c' cs ih =>
    rw [Sorted, List.pairwise_cons] at hsorted
    rw [List.forall_mem_cons] at hcs
    cases i with
    | zero =>
      rw [run, List.getElem?_cons_zero, Option.some_inj, Prod.mk.injEq] at hi
      exact (run_denied hrate hm hcs.1 hi.2 hsorted.2 hsorted.1).symm
    | succ i => exact congrArg _ (ih (hm.check hcs.1) hsorted.2 hsorted.1 hi)

end Levels

/-! ## Keys -/

/-- The answers for a key only depend on the calls of the key. -/
theorem run_filter [DecidableEq κ] (h : m key = m' key) :
    (run cap rate m cs).filter (fun x => x.1.key = key) =
      run cap rate m' (cs.filter fun c => c.key = key) := by
  induction cs generalizing m m' with
  | nil => rfl
  | cons c cs ih =>
    rw [run]
    by_cases hk : c.key = key
    · have hlevel : level cap rate m c.key c.now = level cap rate m' c.key c.now :=
        level_congr (hk ▸ h)
      have hanswer : (check cap rate c m).1 = (check cap rate c m').1 := by
        rw [check_allowed, check_allowed, hlevel]
      have hnext : (check cap rate c m).2 key = (check cap rate c m').2 key := by
        rw [← hk, check_self, check_self, taken, taken, hlevel, hanswer]
      rw [List.filter_cons_of_pos (by simpa using hk), List.filter_cons_of_pos (by simpa using hk),
        run, ih hnext, hanswer]
    · rw [List.filter_cons_of_neg (by simpa using hk), List.filter_cons_of_neg (by simpa using hk)]
      exact ih ((check_ne fun hkey => hk hkey.symm).trans h)

end TokenBucket
