import Mathlib.Logic.Hydra
import Mathlib.Data.Prod.Lex
import Mathlib.Order.WellFounded
import LlmMemory.Lib.Effects

/-!
# The end of a program

A program is a tree, of which a step goes down one edge, so it ends after finitely
many steps, however its operations are answered. So do the tasks it forks, side by
side: a step replaces one of them by what is left of it, as a head of the hydra is
cut off (`Thread.step_before`, `Thread.wellFounded_before`).

`eventually_rests`: what goes down in a well-founded order whenever it changes
changes finitely often.
-/

namespace Effects

open Relation

variable {E : Sig} {S α : Type}

/-- What is left of a program after one of its operations, or once it forked tasks. -/
inductive Prog.Below : Prog E α → Prog E α → Prop
  | op {o : E.Op} {k : E.Ans o → Prog E α} (r : E.Ans o) : Below (k r) (.op o k)
  | fork {n : ℕ} {ts : List E.Task} {k : Prog E α} : Below k (.fork n ts k)

/-- A program goes down at each operation. -/
theorem Prog.wellFounded_below : WellFounded (Prog.Below (E := E) (α := α)) := by
  refine ⟨fun p => ?_⟩
  induction p with
  | ret a => exact ⟨_, fun _ h => nomatch h⟩
  | op o k ih => exact ⟨_, fun _ h => by cases h with | op r => exact ih r⟩
  | fork n ts k ih => exact ⟨_, fun _ h => by cases h; exact ih⟩

/-- What is left of a program being run: the program, how many tasks still wait, and
    what is left of those running. -/
def Thread.left : Thread E α → Prog E α × ℕ × Multiset (Prog E Unit)
  | .seq p => (p, 0, 0)
  | .par _ run w k => (k, w.length + 1, run)

/-- Less is left of the one than of the other. -/
def Thread.Before : Thread E α → Thread E α → Prop :=
  InvImage (Prod.Lex Prog.Below (Prod.Lex (· < ·) (CutExpand Prog.Below))) Thread.left

/-- A thread goes down at each step. -/
theorem Thread.wellFounded_before : WellFounded (Thread.Before (E := E) (α := α)) :=
  InvImage.wf _ (Prog.wellFounded_below.prod_lex
    (wellFounded_lt.prod_lex Prog.wellFounded_below.cutExpand))

/-- An element of a list is replaced by a smaller one. -/
theorem cutExpand_set {β : Type} {r : β → β → Prop} {l : List β} {j : ℕ} {a b : β}
    (hj : l[j]? = some a) (hr : r b a) :
    CutExpand r (l.set j b : Multiset β) (l : Multiset β) := by
  obtain ⟨hlt, rfl⟩ := List.getElem?_eq_some_iff.1 hj
  refine ⟨{b}, l[j], fun a' ha' => Multiset.mem_singleton.1 ha' ▸ hr, ?_⟩
  rw [← Multiset.coe_singleton, ← Multiset.coe_singleton, Multiset.coe_add, Multiset.coe_add,
    Multiset.coe_eq_coe]
  have hsplit : l.Perm (l[j] :: (l.take j ++ l.drop (j + 1))) := by
    nth_rewrite 1 [← List.take_append_drop j l, List.drop_eq_getElem_cons hlt]
    exact List.perm_middle
  have hset : (l.set j b).Perm (b :: (l.take j ++ l.drop (j + 1))) := by
    rw [List.set_eq_take_append_cons_drop, if_pos hlt]
    exact List.perm_middle
  calc List.Perm (l.set j b ++ [l[j]]) (b :: (l.take j ++ l.drop (j + 1)) ++ [l[j]]) :=
        hset.append_right _
    List.Perm _ (l[j] :: b :: (l.take j ++ l.drop (j + 1))) := List.perm_append_singleton _ _
    List.Perm _ (b :: l[j] :: (l.take j ++ l.drop (j + 1))) := .swap _ _ _
    List.Perm _ (b :: l) := hsplit.symm.cons b
    List.Perm _ (l ++ [b]) := (List.perm_append_singleton _ _).symm

/-- An element of a list is removed. -/
theorem cutExpand_eraseIdx {β : Type} {r : β → β → Prop} {l : List β} {j : ℕ} {a : β}
    (hj : l[j]? = some a) : CutExpand r (l.eraseIdx j : Multiset β) (l : Multiset β) := by
  obtain ⟨hlt, rfl⟩ := List.getElem?_eq_some_iff.1 hj
  refine ⟨0, l[j], nofun, ?_⟩
  rw [← Multiset.coe_singleton, Multiset.coe_add, add_zero, Multiset.coe_eq_coe]
  refine (List.perm_append_singleton _ _).trans ?_
  exact List.getElem_cons_eraseIdx_perm hlt

/-- After a step, less is left. -/
theorem Thread.step_before {code : E.Task → Prog E Unit}
    {act : (o : E.Op) → S → Option (E.Ans o × S)} {m : Move} {th th' : Thread E α} {s s' : S}
    (h : th.step code act m s = some (th', s')) : th'.Before th := by
  match m, th with
  | .main, .seq (.op o k) =>
    obtain ⟨⟨r, s₂⟩, hr, he⟩ := Option.map_eq_some_iff.1 h
    cases he
    exact Prod.Lex.left _ _ (.op r)
  | .main, .seq (.fork n ts k) =>
    cases h
    exact Prod.Lex.left _ _ .fork
  | .main, .par _ [] [] k =>
    cases h
    exact Prod.Lex.right _ (Prod.Lex.left _ _ (Nat.zero_lt_one))
  | .start, .par n run (t :: w) k =>
    simp only [Thread.step] at h
    split at h
    · cases h
      exact Prod.Lex.right _ (Prod.Lex.left _ _ (Nat.lt_succ_self _))
    · cases h
  | .task j, .par n run w k =>
    simp only [Thread.step] at h
    split at h
    · rename_i o k' hj
      obtain ⟨⟨r, s₂⟩, hr, he⟩ := Option.map_eq_some_iff.1 h
      cases he
      exact Prod.Lex.right _ (Prod.Lex.right _ (cutExpand_set hj (.op r)))
    · rename_i hj
      cases h
      exact Prod.Lex.right _ (Prod.Lex.right _ (cutExpand_eraseIdx hj))
    · cases h

/-- What goes down whenever it changes comes to rest. -/
theorem eventually_rests {β : Type} {r : β → β → Prop} (hr : WellFounded r) (f : ℕ → β)
    (moves : ℕ → Prop) (hdown : ∀ n, moves n → r (f (n + 1)) (f n))
    (hrest : ∀ n, ¬ moves n → f (n + 1) = f n) : ∃ N, ∀ n, N ≤ n → ¬ moves n := by
  suffices h : ∀ b n, f n = b → ∃ N, ∀ m, N ≤ m → ¬ moves m from h _ 0 rfl
  intro b
  induction b using hr.induction with
  | _ b ih =>
    intro n hn
    by_cases hnext : ∃ m, n ≤ m ∧ moves m
    · -- until the first move from `n` on, nothing changes
      classical
      obtain ⟨hle, hmove⟩ := Nat.find_spec hnext
      have hsame : ∀ m, n ≤ m → m ≤ Nat.find hnext → f m = b := by
        intro m hnm
        induction m, hnm using Nat.le_induction with
        | base => exact fun _ => hn
        | succ m hnm ihm =>
          intro hm
          rw [hrest m fun h => Nat.find_min hnext hm ⟨hnm, h⟩]
          exact ihm (Nat.le_of_succ_le hm)
      refine ih _ ?_ (Nat.find hnext + 1) rfl
      rw [← hsame _ hle le_rfl]
      exact hdown _ hmove
    · exact ⟨n, fun m hm hmove => hnext ⟨m, hm, hmove⟩⟩

end Effects
