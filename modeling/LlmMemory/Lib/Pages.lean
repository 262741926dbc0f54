import LlmMemory.Lib.Rows

/-!
# Pages

A list is read page by page, by offset, while rows are put at its head (`Grows`).
A row only moves towards the end of the list, so it may be read more than once but
is not missed: if the last page reaches the end, each row that the list had at
first was read (`exists_read`). Of the rows with one key, the table of what was
read (`collected`) has the one read last (`mem_collected`).
-/

namespace Pages

variable {α κ : Type} {key : α → κ} {size n : ℕ} {l l' : List α} {k : κ}

/-- The `n`-th page of the list. -/
def page (size n : ℕ) (l : List α) : List α := (l.drop (size * n)).take size

/-- Rows are put at the head of the list; of the others, the keys stay. -/
def Grows (key : α → κ) (l l' : List α) : Prop := ∃ new, l'.map key = new ++ l.map key

/-- What is at a place of a list is at the same place or later when it grew. -/
theorem Grows.exists_getElem? (h : Grows key l l') {q : ℕ} (hq : (l.map key)[q]? = some k) :
    ∃ q', q ≤ q' ∧ (l'.map key)[q']? = some k := by
  obtain ⟨new, hnew⟩ := h
  refine ⟨new.length + q, Nat.le_add_left _ _, ?_⟩
  rw [hnew, List.getElem?_append_right (Nat.le_add_right _ _), Nat.add_sub_cancel_left, hq]

/-- The row at a position is in the page that has this position. -/
theorem mem_page {q : ℕ} (hq : (l.map key)[q]? = some k) (hle : size * n ≤ q)
    (hlt : q < size * (n + 1)) : k ∈ (page size n l).map key := by
  have hoff : q - size * n < size := by
    rw [Nat.mul_succ] at hlt
    omega
  refine List.mem_of_getElem? (i := q - size * n) ?_
  rw [page, List.map_take, List.map_drop, List.getElem?_take_of_lt hoff, List.getElem?_drop,
    Nat.add_sub_cancel' hle, hq]

section Reading

variable {S : ℕ → List α}

/-- A row that was not read on any page yet is behind the last one. -/
theorem exists_behind (hS : ∀ i, Grows key (S i) (S (i + 1))) (h₀ : k ∈ (S 0).map key)
    (hno : ∀ i ≤ n, k ∉ (page size i (S i)).map key) :
    ∃ q, size * (n + 1) ≤ q ∧ ((S n).map key)[q]? = some k := by
  induction n with
  | zero =>
    obtain ⟨q, hq⟩ := List.mem_iff_getElem?.1 h₀
    refine ⟨q, ?_, hq⟩
    by_contra hlt
    exact hno 0 le_rfl (mem_page hq (Nat.zero_le _) (Nat.lt_of_not_le hlt))
  | succ n ih =>
    obtain ⟨q, hle, hq⟩ := ih fun i hi => hno i (Nat.le_succ_of_le hi)
    obtain ⟨q', hle', hq'⟩ := (hS n).exists_getElem? hq
    refine ⟨q', ?_, hq'⟩
    by_contra hlt
    exact hno (n + 1) le_rfl (mem_page hq' (hle.trans hle') (Nat.lt_of_not_le hlt))

/-- If the last page reaches the end of the list, nothing was missed. -/
theorem exists_read (hS : ∀ i, Grows key (S i) (S (i + 1))) (h₀ : k ∈ (S 0).map key)
    (hend : (S n).length ≤ size * (n + 1)) : ∃ i ≤ n, k ∈ (page size i (S i)).map key := by
  by_contra hno
  push Not at hno
  obtain ⟨q, hle, hq⟩ := exists_behind hS h₀ hno
  have hlt := (List.getElem?_eq_some_iff.1 hq).1
  rw [List.length_map] at hlt
  omega

variable [DecidableEq κ]

/-- The table of what was read on the first `n` pages. -/
def collected (key : α → κ) (size : ℕ) (S : ℕ → List α) : ℕ → List α
  | 0 => []
  | n + 1 => Rows.merge key (collected key size S n) (page size n (S n))

/-- What is collected has no key twice. -/
theorem nodup_collected : ((collected key size S n).map key).Nodup := by
  induction n with
  | zero => exact List.nodup_nil
  | succ n ih => exact Rows.nodup_merge ih

/-- A row read is in the table as it was on the last page with its key. -/
theorem mem_collected (hk : ∃ i < n, k ∈ (page size i (S i)).map key) :
    ∃ i < n, ∃ x ∈ page size i (S i), key x = k ∧ x ∈ collected key size S n ∧
      ∀ i', i < i' → i' < n → k ∉ (page size i' (S i')).map key := by
  induction n with
  | zero => exact absurd hk fun ⟨i, hi, _⟩ => Nat.not_lt_zero i hi
  | succ n ih =>
    by_cases hlast : k ∈ (page size n (S n)).map key
    · obtain ⟨x, hx, he, hmem⟩ := Rows.exists_mem_merge (l := collected key size S n) hlast
      exact ⟨n, Nat.lt_succ_self n, x, hx, he, hmem, fun i' h h' => absurd h (by omega)⟩
    · have hbefore : ∃ i < n, k ∈ (page size i (S i)).map key := by
        obtain ⟨i, hi, hmem⟩ := hk
        refine ⟨i, Nat.lt_of_le_of_ne (Nat.le_of_lt_succ hi) fun he => ?_, hmem⟩
        exact hlast (he ▸ hmem)
      obtain ⟨i, hi, x, hx, he, hmem, hlater⟩ := ih hbefore
      refine ⟨i, Nat.lt_succ_of_lt hi, x, hx, he, ?_, fun i' h h' => ?_⟩
      · exact Rows.mem_merge_of_not_mem hmem (he ▸ hlast)
      · rcases Nat.lt_succ_iff_lt_or_eq.1 h' with h' | rfl
        · exact hlater i' h h'
        · exact hlast

end Reading

end Pages
