import Mathlib.Algebra.BigOperators.Group.List.Basic
import Mathlib.Algebra.Ring.Nat
import Mathlib.Data.List.Basic
import Mathlib.Data.Nat.Notation

/-!
# Texts with offsets

A *text* is a list of characters, each of which takes `size` bytes in it. Its
parts are addressed by *offsets*, in bytes; an offset is good only at a boundary
between characters, so that the operations on offsets fail elsewhere: the parts
after an offset (`drop`) and before it (`take`), and between two of them
(`slice`).

* `drop_length_take`, `slice_length_take`: the offsets of positions are good;
* `find_some`, `find_none`: `find` gives the offset of the first occurrence of a
  text in another;
* `Congruent.boundary`: if the characters of two texts take the same bytes, one
  by one, the same offsets are good (`Boundary`).
-/

namespace Offsets

variable {α : Type} (size : α → ℕ)

/-- The bytes that a text takes. -/
def length (cs : List α) : ℕ := (cs.map size).sum

/-- What follows an offset. -/
def drop : List α → ℕ → Option (List α)
  | cs, 0 => some cs
  | [], _ + 1 => none
  | c :: cs, n + 1 => if size c ≤ n + 1 then drop cs (n + 1 - size c) else none

/-- What precedes an offset. -/
def take : List α → ℕ → Option (List α)
  | _, 0 => some []
  | [], _ + 1 => none
  | c :: cs, n + 1 => if size c ≤ n + 1 then (take cs (n + 1 - size c)).map (c :: ·) else none

/-- What is between two offsets. -/
def slice (cs : List α) (start stop : ℕ) : Option (List α) :=
  (take size cs stop).bind fun l => drop size l start

/-- The offset of the first occurrence of `needle`. -/
def find [DecidableEq α] (needle : List α) : List α → Option ℕ
  | [] => if needle = [] then some 0 else none
  | c :: cs => if needle <+: c :: cs then some 0 else (find needle cs).map (size c + ·)

/-- The offset is at a boundary between characters. -/
def Boundary (cs : List α) (n : ℕ) : Prop := ∃ l r, cs = l ++ r ∧ length size l = n

/-- The characters of two texts take the same bytes, one by one. -/
def Congruent (cs ds : List α) : Prop := cs.map size = ds.map size

variable {size} {cs ds l r : List α} {n : ℕ}

/-! ## Offsets -/

@[simp] theorem length_nil : length size ([] : List α) = 0 := rfl

@[simp] theorem length_cons {c : α} : length size (c :: cs) = size c + length size cs := by
  simp [length]

@[simp] theorem length_append : length size (cs ++ ds) = length size cs + length size ds := by
  simp [length]

section Positive

variable (hsize : ∀ c, 0 < size c)
include hsize

theorem drop_append (l r : List α) : drop size (l ++ r) (length size l) = some r := by
  induction l with
  | nil => cases r <;> rfl
  | cons c l ih =>
    have hc := hsize c
    obtain ⟨n, hn⟩ : ∃ n, length size (c :: l) = n + 1 :=
      Nat.exists_eq_add_one.2 (by rw [length_cons]; omega)
    rw [hn, List.cons_append, drop, if_pos (by rw [← hn, length_cons]; omega), ← hn, length_cons,
      Nat.add_sub_cancel_left, ih]

theorem take_append (l r : List α) : take size (l ++ r) (length size l) = some l := by
  induction l with
  | nil => cases r <;> rfl
  | cons c l ih =>
    have hc := hsize c
    obtain ⟨n, hn⟩ : ∃ n, length size (c :: l) = n + 1 :=
      Nat.exists_eq_add_one.2 (by rw [length_cons]; omega)
    rw [hn, List.cons_append, take, if_pos (by rw [← hn, length_cons]; omega), ← hn, length_cons,
      Nat.add_sub_cancel_left, ih, Option.map_some]

/-! The offsets of positions: of the parts that have so many characters. -/

theorem drop_length_take (i : ℕ) : drop size cs (length size (cs.take i)) = some (cs.drop i) := by
  have hdrop := drop_append hsize (cs.take i) (cs.drop i)
  rwa [List.take_append_drop] at hdrop

theorem take_length_take (i : ℕ) : take size cs (length size (cs.take i)) = some (cs.take i) := by
  have htake := take_append hsize (cs.take i) (cs.drop i)
  rwa [List.take_append_drop] at htake

/-- The list between two boundaries. -/
theorem slice_length_take {i j : ℕ} (hle : i ≤ j) :
    slice size cs (length size (cs.take i)) (length size (cs.take j)) =
      some ((cs.take j).drop i) := by
  have htake : cs.take i = (cs.take j).take i := by rw [List.take_take, Nat.min_eq_left hle]
  rw [slice, take_length_take hsize, Option.bind_some, htake, drop_length_take hsize]

end Positive

/-! ## Search -/

section Find

variable [DecidableEq α] {needle : List α}

/-- Where the needle is not found, it does not occur. -/
theorem find_none (h : find size needle cs = none) (i : ℕ) : ¬needle <+: cs.drop i := by
  induction cs generalizing i with
  | nil =>
    rw [find] at h
    split at h
    · cases h
    · next hn => simpa using hn
  | cons c cs ih =>
    rw [find] at h
    split at h
    · cases h
    · next hn =>
      cases i with
      | zero => exact hn
      | succ i => exact ih (Option.map_eq_none_iff.1 h) i

/-- What is found is the first occurrence. -/
theorem find_some (h : find size needle cs = some n) :
    ∃ j ≤ cs.length, length size (cs.take j) = n ∧ needle <+: cs.drop j ∧
      ∀ i < j, ¬needle <+: cs.drop i := by
  induction cs generalizing n with
  | nil =>
    rw [find] at h
    split at h
    · next hn =>
      cases h
      exact ⟨0, Nat.zero_le _, rfl, by rw [hn]; exact List.nil_prefix, fun i hi => by omega⟩
    · cases h
  | cons c cs ih =>
    rw [find] at h
    split at h
    · next hn =>
      cases h
      exact ⟨0, Nat.zero_le _, rfl, hn, fun i hi => by omega⟩
    · next hn =>
      obtain ⟨m, hm, rfl⟩ := Option.map_eq_some_iff.1 h
      obtain ⟨j, hj, rfl, hprefix, hfirst⟩ := ih hm
      refine ⟨j + 1, Nat.succ_le_succ hj, length_cons, hprefix, fun i hi => ?_⟩
      cases i with
      | zero => exact hn
      | succ i => exact hfirst i (Nat.lt_of_succ_lt_succ hi)

end Find

/-! ## Texts of the same sizes -/

section Congruent

/-- Lists that are congruent have the same length. -/
theorem Congruent.length_eq (h : Congruent size cs ds) : length size cs = length size ds :=
  congrArg List.sum h

/-- The offsets of positions are the same. -/
theorem Congruent.length_take (h : Congruent size cs ds) (i : ℕ) :
    length size (cs.take i) = length size (ds.take i) := by
  rw [Congruent] at h
  rw [length, length, List.map_take, List.map_take, h]

theorem Congruent.boundary (h : Congruent size cs ds) : Boundary size cs n ↔ Boundary size ds n := by
  have hsplit : ∀ {cs ds : List α}, Congruent size cs ds → Boundary size cs n →
      Boundary size ds n := by
    rintro cs ds h ⟨l, r, rfl, rfl⟩
    rw [Congruent, List.map_append] at h
    obtain ⟨l', r', rfl, hl, -⟩ := List.map_eq_append_iff.1 h.symm
    exact ⟨l', r', rfl, congrArg List.sum hl⟩
  exact ⟨hsplit h, hsplit h.symm⟩

end Congruent

end Offsets
