import Mathlib.Data.List.Forall2

/-!
# Batches

The entries of a *batch* are handled in turn, each changing the state that the
next one finds (`serve`). Each has its own result (`forall₂_serve`), and an
entry that is *inert*, one which leaves every state as it is with the same
result, makes no difference to those of the others (`serve_inert`).
-/

namespace Batches

variable {σ α β : Type}

/-- The results of the entries, handled in turn, and the state after them. -/
def serve (f : α → σ → β × σ) : List α → σ → List β × σ
  | [], s => ([], s)
  | a :: as, s =>
    let (b, s) := f a s
    let (bs, s) := serve f as s
    (b :: bs, s)

variable {f : α → σ → β × σ}

theorem serve_append (as as' : List α) (s : σ) : serve f (as ++ as') s =
    ((serve f as s).1 ++ (serve f as' (serve f as s).2).1, (serve f as' (serve f as s).2).2) := by
  induction as generalizing s with
  | nil => rfl
  | cons a as ih =>
    rw [List.cons_append, serve, serve]
    dsimp only
    rw [ih]
    rfl

/-- The results are those of the entries, in their order. -/
theorem forall₂_serve {R : α → β → Prop} (h : ∀ a s, R a (f a s).1) (as : List α) (s : σ) :
    List.Forall₂ R as (serve f as s).1 := by
  induction as generalizing s with
  | nil => exact .nil
  | cons a as ih => exact .cons (h a s) (ih (f a s).2)

/-- An inert entry makes no difference to the other ones. -/
theorem serve_inert {a : α} {b : β} (h : ∀ s, f a s = (b, s)) (as as' : List α) (s : σ) :
    serve f (as ++ a :: as') s =
      ((serve f as s).1 ++ b :: (serve f as' (serve f as s).2).1,
        (serve f as' (serve f as s).2).2) := by
  rw [serve_append, serve, h]

end Batches
