import Mathlib.Algebra.BigOperators.Group.List.Basic

/-!
# What is derived from a table

A value may be derived from a table by adding up what each of its rows contributes
(`derived`). Triggers keep such a value, adding the contributions of new rows and
taking away those of old ones: one row at a time for a statement that deletes rows
(`delete_derived`) or changes them (`update_derived`).

Values are bags, or numbers: it is only required that what was added may be taken
away again.
-/

namespace Derived

variable {α A : Type} [AddCommMonoid A] [Sub A] (f : α → A)

/-- What the rows contribute. -/
def derived (rows : List α) : A := (rows.map f).sum

/-- What is kept when the rows are deleted, one at a time. -/
def deleted (rows : List α) (a : A) : A := rows.foldl (fun a x => a - f x) a

/-- What is kept when the rows are changed by `g`, one at a time. -/
def updated (g : α → α) (rows : List α) (a : A) : A :=
  rows.foldl (fun a x => a - f x + f (g x)) a

variable {f} {g : α → α} {p : α → Bool} {rows : List α}

omit [Sub A] in
theorem derived_cons (x : α) : derived f (x :: rows) = f x + derived f rows :=
  List.sum_cons

omit [Sub A] in
/-- A row at the end adds what it gives. -/
theorem derived_append_singleton (x : α) : derived f (rows ++ [x]) = derived f rows + f x := by
  rw [derived, List.map_append, List.sum_append, List.map_singleton, List.sum_singleton, derived]

/-- Deleting rows one at a time leaves what the others contribute. -/
theorem delete_derived (rows : List α) (hsub : ∀ a b : A, a + b - b = a) (b : A) :
    deleted f (rows.filter p) (derived f rows + b) = derived f (rows.filter fun x => !p x) + b := by
  induction rows generalizing b with
  | nil => rfl
  | cons x rows ih =>
    rw [derived_cons]
    cases hp : p x with
    | true =>
      have hx : f x + derived f rows + b - f x = derived f rows + b := by
        rw [add_assoc, add_comm (f x), hsub]
      rw [List.filter_cons_of_pos hp, List.filter_cons_of_neg (by simp [hp]), deleted,
        List.foldl_cons, hx]
      exact ih b
    | false =>
      have hx : f x + derived f rows + b = derived f rows + (f x + b) := by
        rw [add_comm (f x), add_assoc]
      rw [List.filter_cons_of_neg (by simp [hp]), List.filter_cons_of_pos (by simp [hp]), hx, ih,
        derived_cons, ← add_assoc, add_comm (f x)]

/-- Changing rows one at a time leaves what the rows contribute then. -/
theorem update_derived (rows : List α) (hsub : ∀ a b : A, a + b - b = a) (b : A) :
    updated f g (rows.filter p) (derived f rows + b) =
      derived f (rows.map fun x => if p x then g x else x) + b := by
  induction rows generalizing b with
  | nil => rfl
  | cons x rows ih =>
    rw [derived_cons, List.map_cons, derived_cons]
    cases hp : p x with
    | true =>
      have hx : f x + derived f rows + b - f x + f (g x) = derived f rows + (f (g x) + b) := by
        rw [add_assoc, add_comm (f x), hsub, add_assoc, add_comm b]
      rw [List.filter_cons_of_pos hp, updated, List.foldl_cons, hx]
      refine (ih _).trans ?_
      rw [if_pos rfl, ← add_assoc, add_comm (derived f _)]
    | false =>
      have hx : f x + derived f rows + b = derived f rows + (f x + b) := by
        rw [add_comm (f x), add_assoc]
      rw [List.filter_cons_of_neg (by simp [hp]), hx, ih, if_neg (by decide), ← add_assoc,
        add_comm (derived f _)]

end Derived
