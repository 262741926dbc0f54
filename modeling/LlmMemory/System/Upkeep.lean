import LlmMemory.System.Contract

/-!
# Invariants kept by the workers of an owner

An invariant of the database and of what is recorded, which the workers of an
owner keep by an outline (`Upkeep`), and which does not depend on the slots,
holds in every run where the effects of the requests keep to the rely
(`Upkeep.reach`).
-/

namespace LlmMemory

open Effects Runs

/-- Other slots, and what goes with them. -/
def Shared.withSlots (s : Shared) (map : StateMap) (n : Int) (starting : OwnerKey → Bool) : Shared :=
  { s with map := map, inFlight := n, hist := { s.hist with manualStarting := starting } }

/-- An invariant of an owner that a session keeps up, and what it relies on and guarantees. -/
structure Upkeep (fts : Fts) (k : OwnerKey) where
  inv : Shared → Prop
  rely : Shared → Shared → Prop
  guar : Shared → Shared → Prop
  outline : Outline fts rely guar k
  start : ∀ mode s, inv s → outline.start mode s
  finish : ∀ s, outline.finish s → inv s
  stable : Stable rely inv
  keeps : ∀ s s', guar s s' → inv s → inv s'
  slots : ∀ s map n starting, rely s (s.withSlots map n starting)
  tick : ∀ s dt, rely s (s.tick dt)
  aside : ∀ s s', Aside k s s' → rely s s'

namespace Upkeep

variable {fts : Fts} {k : OwnerKey} (U : Upkeep fts k) {s s' : Shared}

/-- A request only writes the slots. -/
theorem slots_of_tryStart {key : OwnerKey} {mode : RebuildMode} {o : Option RebuildMode}
    (h : s.tryStart key mode = (o, s')) : ∃ map n starting, s' = s.withSlots map n starting := by
  cases o with
  | none =>
    obtain ⟨_, rfl, _⟩ := Shared.tryStart_none h
    exact ⟨_, _, _, rfl⟩
  | some m =>
    obtain ⟨_, rfl, _⟩ := Shared.tryStart_some h
    exact ⟨_, _, _, rfl⟩

theorem slots_of_mark {key : OwnerKey} {o : Option RebuildMode}
    (h : s.markIdleOrContinue key = (o, s')) : ∃ map n starting, s' = s.withSlots map n starting := by
  cases o with
  | none =>
    obtain ⟨_, _, rfl⟩ := Shared.markIdleOrContinue_none h
    exact ⟨_, _, _, rfl⟩
  | some m =>
    obtain ⟨_, rfl, _⟩ := Shared.markIdleOrContinue_some h
    exact ⟨_, _, _, rfl⟩

/-- The invariant does not depend on the slots. -/
theorem inv_slots (h : U.inv s) (hs : ∃ map n starting, s' = s.withSlots map n starting) :
    U.inv s' := by
  obtain ⟨_, _, _, rfl⟩ := hs
  exact U.stable _ _ h (U.slots _ _ _ _)

/-- The contract of the workers. -/
def contract : Contract fts k :=
  U.outline.contract (fun s n => U.slots s s.map n s.hist.manualStarting) fun h hm =>
    U.start _ _ (U.inv_slots (U.finish _ h) (slots_of_mark hm))

/-- What every run keeps. -/
structure Kept (s : Sys) : Prop where
  inv : U.inv s.shared
  workers : WorkersSafe U.contract s

variable {U}

/-- The moves of a worker of `k` keep the invariant. -/
theorem inv_moves (h : U.inv s) {w : Worker} {p : Phase} {e : Event} (hk : w.key = k)
    (hsafe : U.contract.PhaseSafe w.phase s) (hm : w.Moves fts e s p s') : U.inv s' := by
  subst hk
  cases hm with
  | spawn _ => exact U.inv_slots h ⟨_, _, _, rfl⟩
  | thread hp _ ht =>
    rw [hp] at hsafe
    exact (hsafe.guar ht).elim (fun he => he ▸ h) fun hg => U.keeps _ _ hg h
  | proceed _ hmark => exact U.inv_slots h (slots_of_mark hmark)
  | idle _ hmark => exact U.inv_slots h (slots_of_mark hmark)
  | observe _ => exact U.inv_slots h ⟨_, _, _, rfl⟩
  | @release r _ => exact U.inv_slots h (by cases r <;> exact ⟨_, _, _, rfl⟩)
  | again _ | err _ | abort _ _ _ => exact h

/-- A move of a worker keeps the invariant. -/
theorem Kept.moves {s : Sys} (h : U.Kept s) (hs : Sound fts s) {i : ℕ} {w : Worker} {p : Phase}
    {sh : Shared} {e : Event} (hi : s.workers[i]? = some w) (hm : w.Moves fts e s.shared p sh) :
    U.Kept (s.setWorker i { w with phase := p } sh) := by
  have haside : w.key ≠ k → U.rely s.shared sh := fun hk =>
    U.aside _ _ (((hs.own w.key).ownMove (List.mem_of_getElem? hi) rfl hm).aside (Ne.symm hk))
  refine ⟨?_, h.workers.moves hs.slots hi hm haside⟩
  by_cases hk : w.key = k
  · exact inv_moves h.inv hk (h.workers w (List.mem_of_getElem? hi) hk) hm
  · exact U.stable _ _ h.inv (haside hk)

theorem Kept.effect {s : Sys} (h : U.Kept s) (hs : Sound fts s) {e : Effect}
    (hr : U.rely s.shared (s.effect e).shared) : U.Kept (s.effect e) := by
  refine ⟨U.stable _ _ h.inv hr, h.workers.effect hs.slots (fun _ => hr) fun mode m sh _ ht => ?_⟩
  exact U.start _ _ (U.inv_slots h.inv (slots_of_tryStart ht))

/-- The invariant holds in every state reached, if the effects of requests
    other than a rebuild are in the rely. -/
theorem reach {init : Sys → Prop} {ok : Sys → Step → Prop} {s : Sys}
    (h₀ : ∀ s, init s → Boot s ∧ U.inv s.shared)
    (heff : ∀ (s s₁ : Sys) l e, ok s l → s.Does l e → s₁.Allows e →
      (∀ key mode, e ≠ .tryStart key mode) → U.rely s₁.shared (s₁.effect e).shared)
    (h : Reach init (Sys.step fts) ok s) : U.inv s.shared := by
  refine (Sound.invariant (P := U.Kept) (fun s hs => ⟨(h₀ s hs).1, (h₀ s hs).2, fun w hw => ?_⟩)
    (fun s l s' hs hP hok hst => hs.keep hst (fun calls => ?_) (fun s₁ e he hs₁ hP ha => ?_)
      fun s₁ i w p sh hs₁ hP hi hm => hP.moves hs₁ hi hm) h).2.inv
  · rw [(h₀ s hs).1.workers] at hw
    cases hw
  · exact ⟨U.stable _ _ hP.inv (U.tick _ _), hP.workers.env rfl (U.tick _ _)⟩
  · refine hP.effect hs₁ ?_
    by_cases ht : ∃ key mode, e = .tryStart key mode
    · obtain ⟨key, mode, rfl⟩ := ht
      obtain ⟨map, n, starting, he⟩ : ∃ map n starting,
          (s₁.effect (.tryStart key mode)).shared = s₁.shared.withSlots map n starting := by
        rw [Sys.effect_tryStart_shared]
        exact slots_of_tryStart rfl
      rw [he]
      exact U.slots _ _ _ _
    · exact heff s s₁ l e hok he ha fun key mode h => ht ⟨key, mode, h⟩

end Upkeep

end LlmMemory
