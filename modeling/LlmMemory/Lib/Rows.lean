import Mathlib.Data.List.Basic
import Mathlib.Data.List.Nodup
import Mathlib.Data.List.Sort

/-!
# Tables of rows

A table is the list of its rows, in the order of their insertion, with a
`key` identifying them. `upsert` inserts a row or replaces the one with its
key; it keeps the keys distinct, and the rows of other keys. `merge` upserts one
row after the other: of the rows with one key, the last is in the table.

A query that selects some of the rows of a view only depends on the view
(`filter_eq_of_view`, `find?_eq_of_view`), and so does one by a key, as far as
it selects a row of the view (`find?_filter_of_nodup`).
-/

namespace Rows

variable {α κ : Type} [DecidableEq κ] {key : α → κ} {x y : α} {l : List α}

/-- Insert the row `x`, or replace by it the row with its key. -/
def upsert (key : α → κ) (x : α) : List α → List α
  | [] => [x]
  | y :: ys => if key y = key x then x :: ys else y :: upsert key x ys

theorem mem_upsert_self : x ∈ upsert key x l := by
  induction l with
  | nil => exact List.mem_singleton_self x
  | cons z l ih =>
    rw [upsert]
    split
    · exact List.mem_cons_self
    · exact List.mem_cons_of_mem _ ih

/-- The other rows were there before. -/
theorem mem_or_eq_of_mem_upsert (h : y ∈ upsert key x l) : y = x ∨ y ∈ l := by
  induction l with
  | nil => exact .inl (List.mem_singleton.1 h)
  | cons z l ih =>
    rw [upsert] at h
    split at h
    · exact (List.mem_cons.1 h).imp_right (List.mem_cons_of_mem _)
    · rcases List.mem_cons.1 h with rfl | h
      · exact .inr List.mem_cons_self
      · exact (ih h).imp_right (List.mem_cons_of_mem _)

theorem mem_upsert_of_ne (h : y ∈ l) (hne : key y ≠ key x) : y ∈ upsert key x l := by
  induction l with
  | nil => exact absurd h List.not_mem_nil
  | cons z l ih =>
    rw [upsert]
    split
    · rename_i hz
      rcases List.mem_cons.1 h with rfl | h
      · exact absurd hz hne
      · exact List.mem_cons_of_mem _ h
    · rcases List.mem_cons.1 h with rfl | h
      · exact List.mem_cons_self
      · exact List.mem_cons_of_mem _ (ih h)

/-- The keys after an upsert: those before, and that of the new row. -/
theorem map_key_upsert : (upsert key x l).map key =
    if key x ∈ l.map key then l.map key else l.map key ++ [key x] := by
  induction l with
  | nil => simp [upsert]
  | cons z l ih =>
    rw [upsert]
    by_cases hz : key z = key x
    · simp [hz]
    · simp only [if_neg hz, List.map_cons, ih, List.mem_cons, Ne.symm hz, false_or]
      split <;> rfl

/-- Writing a row keeps the keys distinct. -/
theorem nodup_upsert (h : (l.map key).Nodup) : ((upsert key x l).map key).Nodup := by
  rw [map_key_upsert]
  split
  · exact h
  · rename_i hx
    exact List.nodup_append.2 ⟨h, List.nodup_singleton _, fun a ha b hb => by
      rw [List.mem_singleton.1 hb]
      exact fun e => hx (e ▸ ha)⟩

/-- The rows `p` selects are not affected by the upsert of a row with a key it
    does not select. -/
theorem filter_upsert {p : α → Bool} (h : ∀ y, key y = key x → p y = false) :
    (upsert key x l).filter p = l.filter p := by
  induction l with
  | nil => simp [upsert, h x rfl]
  | cons z l ih =>
    rw [upsert]
    split
    · rename_i hz
      simp [h x rfl, h z hz]
    · simp only [List.filter_cons, ih]

/-- The rows `p` selects, after the upsert of a row with a key it selects. -/
theorem filter_upsert_self {p : α → Bool} (h : ∀ y, key y = key x → p y = true) :
    (upsert key x l).filter p = upsert key x (l.filter p) := by
  induction l with
  | nil => simp [upsert, h x rfl]
  | cons z l ih =>
    rw [upsert]
    split
    · rename_i hz
      simp [h x rfl, h z hz, upsert, hz]
    · rename_i hz
      rw [List.filter_cons, List.filter_cons, ih]
      split
      · rw [upsert, if_neg hz]
      · rfl

/-- The only row that is selected is the one found. -/
theorem find?_eq_some_of_unique {p : α → Bool} (hx : x ∈ l) (hp : p x = true)
    (hu : ∀ y ∈ l, p y = true → y = x) : l.find? p = some x := by
  cases hf : l.find? p with
  | none => exact absurd hp (List.find?_eq_none.1 hf x hx)
  | some y => rw [hu y (List.mem_of_find?_eq_some hf) (List.find?_some hf)]

/-! ## Merging -/

section Merging

variable {rows : List α} {k : κ}

/-- The table after the upserts of the rows, in this order. -/
def merge (key : α → κ) (l rows : List α) : List α := rows.foldl (fun l x => upsert key x l) l

theorem nodup_merge (h : (l.map key).Nodup) : ((merge key l rows).map key).Nodup := by
  induction rows generalizing l with
  | nil => exact h
  | cons x rows ih => exact ih (nodup_upsert h)

/-- A row whose key is not among those of the new rows stays. -/
theorem mem_merge_of_not_mem (h : y ∈ l) (hne : key y ∉ rows.map key) : y ∈ merge key l rows := by
  induction rows generalizing l with
  | nil => exact h
  | cons x rows ih =>
    rw [List.map_cons, List.mem_cons, not_or] at hne
    exact ih (mem_upsert_of_ne h hne.1) hne.2

/-- A key of the new rows is that of one of them in the table. -/
theorem exists_mem_merge (h : k ∈ rows.map key) : ∃ x ∈ rows, key x = k ∧ x ∈ merge key l rows := by
  induction rows generalizing l with
  | nil => exact absurd h List.not_mem_nil
  | cons x rows ih =>
    by_cases hk : k ∈ rows.map key
    · obtain ⟨y, hy, he, hmem⟩ := ih (l := upsert key x l) hk
      exact ⟨y, List.mem_cons_of_mem _ hy, he, hmem⟩
    · -- The first row is the last one with its key.
      have hx : key x = k := ((List.mem_cons.1 h).resolve_right hk).symm
      have hmem : x ∈ merge key (upsert key x l) rows :=
        mem_merge_of_not_mem mem_upsert_self (hx ▸ hk)
      exact ⟨x, List.mem_cons_self, hx, hmem⟩

/-- The rows of the table are those that were there, and the new ones. -/
theorem mem_or_mem_of_mem_merge (h : y ∈ merge key l rows) : y ∈ l ∨ y ∈ rows := by
  induction rows generalizing l with
  | nil => exact .inl h
  | cons x rows ih =>
    rcases ih h with hmem | hmem
    · rcases mem_or_eq_of_mem_upsert hmem with rfl | hl
      · exact .inr List.mem_cons_self
      · exact .inl hl
    · exact .inr (List.mem_cons_of_mem _ hmem)

/-- New rows with distinct keys are all in the table. -/
theorem mem_merge_of_mem (h : (rows.map key).Nodup) (hx : x ∈ rows) : x ∈ merge key l rows := by
  obtain ⟨y, hy, he, hmem⟩ := exists_mem_merge (l := l) (List.mem_map_of_mem (f := key) hx)
  rwa [List.inj_on_of_nodup_map h hy hx he] at hmem

/-- Where the keys are distinct, a row is the only one with its key. -/
theorem filter_key_of_mem (h : (l.map key).Nodup) (hx : x ∈ l) :
    l.filter (fun y => key y = key x) = [x] := by
  induction l with
  | nil => exact absurd hx List.not_mem_nil
  | cons y l ih =>
    obtain ⟨hy, hl⟩ := List.nodup_cons.1 h
    rcases List.mem_cons.1 hx with rfl | hx
    · have hnone : l.filter (fun y => key y = key x) = [] := by
        refine List.filter_eq_nil_iff.2 fun z hz he => hy ?_
        rw [← of_decide_eq_true he]
        exact List.mem_map_of_mem hz
      rw [List.filter_cons_of_pos (by simp), hnone]
    · have hne : ¬key y = key x := fun he => hy (he ▸ List.mem_map_of_mem hx)
      rw [List.filter_cons_of_neg (by simpa using hne), ih hl hx]

end Merging

/-! ## Tables up to the order of their rows -/

section Order

variable {l' rows rows' : List α}

/-- Where the keys are distinct, an upsert replaces the row with the key, if there is one. -/
theorem upsert_perm (h : (l.map key).Nodup) :
    (upsert key x l).Perm (x :: l.filter fun y => key y ≠ key x) := by
  induction l with
  | nil => exact .refl _
  | cons y l ih =>
    obtain ⟨hy, hl⟩ := List.nodup_cons.1 h
    rw [upsert]
    by_cases hk : key y = key x
    · have hrest : l.filter (fun z => key z ≠ key x) = l := by
        refine List.filter_eq_self.2 fun z hz => decide_eq_true fun he => hy ?_
        rw [hk, ← he]
        exact List.mem_map_of_mem hz
      rw [if_pos hk, List.filter_cons_of_neg (by simpa using hk), hrest]
    · rw [if_neg hk, List.filter_cons_of_pos (by simpa using hk)]
      exact ((ih hl).cons y).trans (.swap _ _ _)

theorem upsert_congr (h : (l.map key).Nodup) (hp : l.Perm l') :
    (upsert key x l).Perm (upsert key x l') :=
  (upsert_perm h).trans (((hp.filter _).cons x).trans
    (upsert_perm ((hp.map key).nodup_iff.1 h)).symm)

/-- Upserts of rows with different keys may be exchanged. -/
theorem upsert_comm (h : (l.map key).Nodup) (hne : key x ≠ key y) :
    (upsert key x (upsert key y l)).Perm (upsert key y (upsert key x l)) := by
  have hboth : ∀ {x y : α}, key x ≠ key y → (upsert key x (upsert key y l)).Perm
      (x :: y :: (l.filter fun z => key z ≠ key y).filter fun z => key z ≠ key x) := by
    intro x y hne
    refine (upsert_perm (nodup_upsert h)).trans (.cons x ?_)
    refine ((upsert_perm h).filter _).trans (.of_eq ?_)
    rw [List.filter_cons_of_pos (by simpa using hne.symm)]
  refine (hboth hne).trans (.trans (.swap _ _ _) (.trans (.of_eq ?_) (hboth hne.symm).symm))
  rw [List.filter_filter, List.filter_filter]
  simp only [Bool.and_comm]

theorem merge_congr (h : (l.map key).Nodup) (hp : l.Perm l') :
    (merge key l rows).Perm (merge key l' rows) := by
  induction rows generalizing l l' with
  | nil => exact hp
  | cons x rows ih => exact ih (nodup_upsert h) (upsert_congr h hp)

/-- The order in which rows with different keys are upserted does not matter. -/
theorem merge_perm (h : (l.map key).Nodup) (hrows : (rows.map key).Nodup)
    (hp : rows.Perm rows') : (merge key l rows).Perm (merge key l rows') := by
  induction hp generalizing l with
  | nil => exact .refl _
  | cons x hp ih =>
    rw [List.map_cons, List.nodup_cons] at hrows
    exact ih (nodup_upsert h) hrows.2
  | swap x y rows =>
    have hne : key x ≠ key y := by
      intro he
      simp [he] at hrows
    exact merge_congr (nodup_upsert (nodup_upsert h)) (upsert_comm h hne)
  | trans hp₁ _ ih₁ ih₂ =>
    exact (ih₁ h hrows).trans (ih₂ h ((hp₁.map key).nodup_iff.1 hrows))

/-- The row with a key, where the keys are distinct. -/
theorem find?_key {k : κ} (h : (l.map key).Nodup) (hx : x ∈ l) (hk : key x = k) :
    l.find? (fun y => key y = k) = some x := by
  refine find?_eq_some_of_unique hx (decide_eq_true hk) fun y hy hyk => ?_
  have hmem : y ∈ l.filter fun z => key z = key x :=
    List.mem_filter.2 ⟨hy, decide_eq_true ((of_decide_eq_true hyk).trans hk.symm)⟩
  rw [filter_key_of_mem h hx] at hmem
  exact List.mem_singleton.1 hmem

/-- The upserts leave the row with a key that none of them has. -/
theorem find?_merge {k : κ} (hk : k ∉ rows.map key) :
    (merge key l rows).find? (fun y => key y = k) = l.find? fun y => key y = k := by
  induction rows generalizing l with
  | nil => rfl
  | cons x rows ih =>
    rw [List.map_cons, List.mem_cons, not_or] at hk
    refine (ih hk.2).trans ?_
    rw [← List.head?_filter, ← List.head?_filter, filter_upsert]
    intro y hy
    exact decide_eq_false fun he => hk.1 (he ▸ hy)

end Order

/-! ## Views -/

section Views

variable {l' : List α} {p q : α → Bool}

/-- Rows that are seen alike are filtered alike. -/
theorem filter_eq_of_view (h : l.filter p = l'.filter p) (hq : ∀ x, q x = true → p x = true) :
    l.filter q = l'.filter q := by
  have hview : ∀ l : List α, l.filter q = (l.filter p).filter q := fun l => by
    rw [List.filter_filter]
    refine List.filter_congr fun x _ => ?_
    cases hx : q x with
    | false => rfl
    | true => rw [hq x hx]; rfl
  rw [hview l, h, ← hview]

/-- Rows that are seen alike are found alike. -/
theorem find?_eq_of_view (h : l.filter p = l'.filter p) (hq : ∀ x, q x = true → p x = true) :
    l.find? q = l'.find? q := by
  rw [← List.head?_filter, filter_eq_of_view h hq, List.head?_filter]

/-- The row with a key, if it is in the view. -/
theorem find?_filter_of_nodup {k : κ} (h : (l.map key).Nodup) :
    (l.find? fun x => key x = k).filter p = (l.filter p).find? fun x => key x = k := by
  induction l with
  | nil => rfl
  | cons y l ih =>
    obtain ⟨hy, hl⟩ := List.nodup_cons.1 h
    by_cases hk : key y = k
    · have hno : (l.filter p).find? (fun x => key x = k) = none := by
        refine List.find?_eq_none.2 fun x hx he => hy ?_
        rw [hk, ← of_decide_eq_true he]
        exact List.mem_map_of_mem (List.mem_of_mem_filter hx)
      cases hp : p y with
      | false => simp [hk, hp, hno]
      | true => simp [hk, hp]
    · cases hp : p y with
      | false => simpa [List.filter_cons, hk, hp] using ih hl
      | true => simpa [List.filter_cons, hk, hp] using ih hl

/-- Sorting only depends on the order of the rows of the list. -/
theorem insertionSort_congr {r s : α → α → Prop} [DecidableRel r] [DecidableRel s]
    (h : ∀ x ∈ l, ∀ y ∈ l, r x y ↔ s x y) : l.insertionSort r = l.insertionSort s := by
  have hins : ∀ (x : α) (l : List α), (∀ y ∈ l, r x y ↔ s x y) →
      l.orderedInsert r x = l.orderedInsert s x := fun x l => by
    induction l with
    | nil => exact fun _ => rfl
    | cons y l ih =>
      intro hl
      simp only [List.orderedInsert, hl y List.mem_cons_self]
      rw [ih fun z hz => hl z (List.mem_cons_of_mem _ hz)]
  induction l with
  | nil => rfl
  | cons x l ih =>
    have hx : ∀ y ∈ l.insertionSort s, r x y ↔ s x y := fun y hy =>
      h x List.mem_cons_self y (List.mem_cons_of_mem _ ((List.perm_insertionSort s l).mem_iff.1 hy))
    rw [List.insertionSort_cons, List.insertionSort_cons, ih fun y hy z hz =>
      h y (List.mem_cons_of_mem _ hy) z (List.mem_cons_of_mem _ hz)]
    exact hins x _ hx

end Views

end Rows
