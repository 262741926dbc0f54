import Mathlib.Data.List.Basic

/-!
# Unwinding

A system takes events one at a time, each changing its state and giving outputs
(`run`). An observer is concerned by some of the events, and sees some of the
outputs. Where what they see of the state is kept by the others and depends, with
the outputs seen, on itself and what concerns them only (`Unwinds`), so do the
outputs they see in any run (`Unwinds.run_eq`).

That an event may rely on the events to come, which for instance do not draw what
it draws, is in the invariant.
-/

namespace Unwinding

variable {S E O : Type}

/-- The state after the events, and their outputs. -/
def run (step : S → E → S × List O) (s : S) : List E → S × List O
  | [] => (s, [])
  | e :: es =>
    let (s', os) := step s e
    let (s'', os') := run step s' es
    (s'', os ++ os')

/-- An observer sees `view` of a state and the outputs `visible`, and is concerned by
    the events `concerns`. Before the events to come the states satisfy `inv`. -/
structure Unwinds (step : S → E → S × List O) (concerns : E → Bool) (visible : O → Bool)
    (inv : List E → S → Prop) (view : S → S → Prop) : Prop where
  symm : ∀ {s s'}, view s s' → view s' s
  inv_step : ∀ {s e es}, inv (e :: es) s → inv es (step s e).1
  unseen : ∀ {s s' e es}, inv (e :: es) s → view s s' → concerns e = false →
    view (step s e).1 s' ∧ (step s e).2.filter visible = []
  seen : ∀ {s s' e es es'}, inv (e :: es) s → inv (e :: es') s' → view s s' → concerns e = true →
    view (step s e).1 (step s' e).1 ∧
      (step s e).2.filter visible = (step s' e).2.filter visible

variable {step : S → E → S × List O} {concerns : E → Bool} {visible : O → Bool}
  {inv : List E → S → Prop} {view : S → S → Prop} {s s' : S} {e : E} {es es' : List E}

theorem run_append (s : S) (es es' : List E) :
    run step s (es ++ es') = ((run step (run step s es).1 es').1,
      (run step s es).2 ++ (run step (run step s es).1 es').2) := by
  induction es generalizing s with
  | nil => rfl
  | cons e es ih =>
    show ((run step (step s e).1 (es ++ es')).1, _ ++ (run step (step s e).1 (es ++ es')).2) = _
    rw [ih, ← List.append_assoc]
    rfl

namespace Unwinds

variable (h : Unwinds step concerns visible inv view)

include h

/-- The invariant holds along a run. -/
theorem inv_run (hs : inv (es ++ es') s) : inv es' (run step s es).1 := by
  induction es generalizing s with
  | nil => exact hs
  | cons e es ih => exact ih (h.inv_step hs)

/-- What does not concern the observer is not seen. -/
theorem run_unseen (hs : inv (es ++ es') s) (hview : view s s')
    (hes : ∀ e ∈ es, concerns e = false) :
    view (run step s es).1 s' ∧ (run step s es).2.filter visible = [] := by
  induction es generalizing s with
  | nil => exact ⟨hview, rfl⟩
  | cons e es ih =>
    obtain ⟨hview', hout⟩ := h.unseen hs hview (hes e List.mem_cons_self)
    obtain ⟨hview'', hout'⟩ := ih (h.inv_step hs) hview' fun e he =>
      hes e (List.mem_cons_of_mem _ he)
    refine ⟨hview'', ?_⟩
    show ((step s e).2 ++ _).filter visible = []
    rw [List.filter_append, hout, hout', List.nil_append]

/-- Runs of events that agree on what concerns the observer are seen alike. -/
theorem run_eq (hs : inv es s) (hs' : inv es' s') (hview : view s s')
    (hes : es.filter concerns = es'.filter concerns) :
    view (run step s es).1 (run step s' es').1 ∧
      (run step s es).2.filter visible = (run step s' es').2.filter visible := by
  induction es generalizing s s' es' with
  | nil =>
    have hunseen : ∀ e ∈ es', concerns e = false := fun e he => by
      simpa using List.filter_eq_nil_iff.1 hes.symm e he
    rw [← List.append_nil es'] at hs'
    obtain ⟨hview', hout⟩ := h.run_unseen hs' (h.symm hview) hunseen
    exact ⟨h.symm hview', hout.symm⟩
  | cons e es ih =>
    cases hc : concerns e with
    | false =>
      obtain ⟨hview', hout⟩ := h.unseen hs hview hc
      rw [List.filter_cons_of_neg (by rw [hc]; decide)] at hes
      obtain ⟨hview'', hout'⟩ := ih (h.inv_step hs) hs' hview' hes
      refine ⟨hview'', ?_⟩
      show ((step s e).2 ++ _).filter visible = _
      rw [List.filter_append, hout, hout', List.nil_append]
    | true =>
      rw [List.filter_cons_of_pos hc] at hes
      obtain ⟨pre, post, rfl, hpre, -, hpost⟩ := List.filter_eq_cons_iff.1 hes.symm
      have hunseen : ∀ e ∈ pre, concerns e = false := fun e he => by simpa using hpre e he
      -- the events before the next one that concerns the observer come first
      obtain ⟨hview', hout⟩ := h.run_unseen hs' (h.symm hview) hunseen
      have hinv := h.inv_run hs'
      obtain ⟨hview'', hout'⟩ := h.seen hs hinv (h.symm hview') hc
      obtain ⟨hviewed, houts⟩ := ih (h.inv_step hs) (h.inv_step hinv) hview'' hpost.symm
      rw [run_append]
      refine ⟨hviewed, ?_⟩
      show ((step s e).2 ++ _).filter visible = (_ ++ ((step _ e).2 ++ _)).filter visible
      rw [List.filter_append, List.filter_append, List.filter_append, hout, hout', houts,
        List.nil_append]

end Unwinds

end Unwinding
