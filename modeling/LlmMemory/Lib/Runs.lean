import Mathlib.Logic.Relation

/-!
# Runs of a transition system

A system takes labelled steps, `step s l` being the state after the step `l`
from `s`, if it is possible there. Its runs are restricted by a condition `ok`
on the steps taken: `Reach` are the states reached by the runs all of whose
steps meet it.

* `Reach.invariant`: what holds initially and is kept by the steps holds in
  every state reached;
* `Reach.mono`: a weaker condition, to be shown only in the states reached,
  reaches more;
* `Reach.exec`: a trace that executes (`exec`) gives a run;
* `Reach.tryAll`: so do steps that are taken where they are possible.
-/

namespace Runs

variable {S L : Type} {init : S → Prop} {step : S → L → Option S} {ok ok' : S → L → Prop}

/-- The states reached, from those in `init`, by steps meeting `ok`. -/
inductive Reach (init : S → Prop) (step : S → L → Option S) (ok : S → L → Prop) : S → Prop
  | init {s : S} : init s → Reach init step ok s
  | step {s s' : S} {l : L} : Reach init step ok s → ok s l → step s l = some s' →
      Reach init step ok s'

/-- What holds at first, and is kept by every step, holds in every state reached. -/
theorem Reach.invariant {P : S → Prop} (h₀ : ∀ s, init s → P s)
    (h : ∀ s l s', Reach init step ok s → P s → ok s l → step s l = some s' → P s') {s : S}
    (hs : Reach init step ok s) : P s := by
  induction hs with
  | init hi => exact h₀ _ hi
  | step hr hok hst ih => exact h _ _ _ hr ih hok hst

theorem Reach.mono (h : ∀ s l s', Reach init step ok' s → ok s l → step s l = some s' → ok' s l)
    {s : S} (hs : Reach init step ok s) : Reach init step ok' s := by
  induction hs with
  | init hi => exact .init hi
  | step _ hok hst ih => exact .step ih (h _ _ _ ih hok hst) hst

/-- A run that goes on from where another ended. -/
theorem Reach.append {s s' : S} (hs : Reach init step ok s) (h : Reach (· = s) step ok s') :
    Reach init step ok s' := by
  induction h with
  | init he => exact he ▸ hs
  | step _ hok hst ih => exact .step ih hok hst

/-- The state after the steps `ls`, all meeting `ok`. -/
def exec (step : S → L → Option S) (ok : S → L → Bool) : S → List L → Option S
  | s, [] => some s
  | s, l :: ls => if ok s l then (step s l).bind fun s' => exec step ok s' ls else none

/-- A run that is executed reaches its last state. -/
theorem Reach.exec {okb : S → L → Bool} (hok : ∀ s l, okb s l = true → ok s l) {s s' : S}
    {ls : List L} (hs : Reach init step ok s) (h : exec step okb s ls = some s') :
    Reach init step ok s' := by
  induction ls generalizing s with
  | nil => exact Option.some.inj h ▸ hs
  | cons l ls ih =>
    simp only [Runs.exec] at h
    split at h
    · rename_i hb
      obtain ⟨s₁, h₁, h₂⟩ := Option.bind_eq_some_iff.1 h
      exact ih (.step hs (hok _ _ hb) h₁) h₂
    · cases h

/-- The state after the steps of `ls` that are possible, each in its turn. -/
def tryAll (step : S → L → Option S) : S → List L → S
  | s, [] => s
  | s, l :: ls => tryAll step ((step s l).getD s) ls

theorem Reach.tryAll {s : S} {ls : List L} (hs : Reach init step ok s)
    (hok : ∀ s, ∀ l ∈ ls, ok s l) : Reach init step ok (tryAll step s ls) := by
  induction ls generalizing s with
  | nil => exact hs
  | cons l ls ih =>
    refine ih ?_ fun s l' hl' => hok s l' (List.mem_cons_of_mem _ hl')
    cases hst : step s l with
    | none => exact hs
    | some s' => exact .step hs (hok s l List.mem_cons_self) hst

end Runs
