import LlmMemory.Coordinator.State
import LlmMemory.Lib.Runs

/-!
# No request is lost

The operations on the entry of one owner, in any order, with the history of
what was asked and what was dispatched (`Tracked`): the modes requested so far,
which of the requests the pending one stands for, and the modes dispatched,
each with the number of requests made by then and the request it comes from.

An append is *accounted for* once an append is dispatched at it or after it, or
while it is recorded as missed; a manual request, once it is dispatched itself,
or a later one or one of all concepts is after it, or while such a one is
pending (`Accounted`). Every operation keeps this, and a slot is only released
when nothing is recorded, so all is dispatched by then (`reach_accounted`).
-/

namespace LlmMemory.Requests

open Runs

/-- A dispatched mode, the number of requests made by then, and the request it
    comes from (none for an append going before or after its time). -/
structure Dispatch where
  time : ℕ
  mode : RebuildMode
  src : Option ℕ

/-- The map, with the history of the requests of one owner. -/
structure Tracked where
  map : StateMap := fun _ => none
  asked : List RebuildMode := []
  pendingOf : Option ℕ := none
  dispatched : List Dispatch := []

/-- A call of the map. -/
inductive Call
  | tryStart (mode : RebuildMode)
  | markIdleOrContinue
  | releaseRunningPreservePending

/-- The entry of an owner in the map after a call for `key`. -/
def Call.apply (map : StateMap) (key : OwnerKey) : Call → StateMap
  | .tryStart mode => (map.tryStart key mode).2
  | .markIdleOrContinue => (map.markIdleOrContinue key).2
  | .releaseRunningPreservePending => map.releaseRunningPreservePending key

/-- The request the pending one stands for, after merging an incoming one. -/
def mergedOf (k : OwnerKey) (s : Tracked) : Option ℕ :=
  if (s.map.entry k).manualPending = some (.manual none) then s.pendingOf
  else some s.asked.length

/-- The history after a request `mode` with outcome `o`: it tells whether the
    request was dispatched, or stands for the pending one, alone or merged. -/
def noteOutcome (k : OwnerKey) (s : Tracked) (mode : RebuildMode) : StartOutcome → Tracked
  | .alreadyRunning => { s with asked := s.asked ++ [mode] }
  | .pending => { s with asked := s.asked ++ [mode], pendingOf := mergedOf k s }
  | .started m =>
    let i := s.asked.length
    if m = mode then
      { s with asked := s.asked ++ [mode], dispatched := s.dispatched ++ [⟨i + 1, m, some i⟩] }
    else
      { s with asked := s.asked ++ [mode], dispatched := s.dispatched ++ [⟨i + 1, m, none⟩],
               pendingOf := mergedOf k s }

/-- A request `mode` for `k`. -/
def noteRequest (k : OwnerKey) (s : Tracked) (mode : RebuildMode) : Tracked :=
  { noteOutcome k s mode (s.map.tryStart k mode).1 with map := (s.map.tryStart k mode).2 }

/-- The history after the end of a session, continuing with `c`. -/
def noteNext (s : Tracked) : Option RebuildMode → Tracked
  | none => s
  | some .append => { s with dispatched := s.dispatched ++ [⟨s.asked.length, .append, none⟩] }
  | some (.manual c) =>
    { s with dispatched := s.dispatched ++ [⟨s.asked.length, .manual c, s.pendingOf⟩],
             pendingOf := none }

/-- The end of a session of `k`. -/
def noteContinue (k : OwnerKey) (s : Tracked) : Tracked :=
  { noteNext s (s.map.markIdleOrContinue k).1 with map := (s.map.markIdleOrContinue k).2 }

/-- A call on any entry; the end of a session and the release after an error
    only come from the worker that holds the slot. -/
def step (k : OwnerKey) (s : Tracked) : OwnerKey × Call → Option Tracked
  | (key, call) =>
    if key ≠ k then some { s with map := call.apply s.map key }
    else match call with
      | .tryStart mode => some (noteRequest k s mode)
      | .markIdleOrContinue => if s.map.isRunning k then some (noteContinue k s) else none
      | .releaseRunningPreservePending =>
        if s.map.isRunning k then some { s with map := s.map.releaseRunningPreservePending k }
        else none

/-- The states reached by the calls, in any order. -/
abbrev Reachable (k : OwnerKey) : Tracked → Prop := Reach (· = {}) (step k) fun _ _ => True

/-! ## Other entries -/

/-- A call changes the entry of its owner only. -/
theorem Call.apply_of_ne {map : StateMap} {key key' : OwnerKey} (call : Call) (h : key' ≠ key) :
    call.apply map key key' = map key' := by
  cases call with
  | tryStart mode => exact StateMap.tryStart_of_ne h
  | markIdleOrContinue => exact StateMap.markIdleOrContinue_of_ne h
  | releaseRunningPreservePending => exact StateMap.releaseRunningPreservePending_of_ne h

/-! ## Accounting -/

/-- An append was dispatched at the request `i` or after it. -/
def AppendServed (s : Tracked) (i : ℕ) : Prop := ∃ d ∈ s.dispatched, d.mode = .append ∧ i < d.time

/-- The request `j`, for the concept `c` or for all, makes up for the request
    `i`: it is that request, or for all concepts, or a later one. -/
def Covers (i j : ℕ) (c : Option String) : Prop := j = i ∨ c = none ∨ i < j

/-- A manual request making up for the request `i` was dispatched after it. -/
def ManualServed (s : Tracked) (i : ℕ) : Prop :=
  ∃ d ∈ s.dispatched, i < d.time ∧ ∃ j c, d.mode = .manual c ∧ d.src = some j ∧
    s.asked[j]? = some (.manual c) ∧ Covers i j c

/-- The pending request is the request `j`, for the concept `c` or for all. -/
def Pending (k : OwnerKey) (s : Tracked) (j : ℕ) (c : Option String) : Prop :=
  (s.map.entry k).manualPending = some (.manual c) ∧ s.pendingOf = some j ∧
    s.asked[j]? = some (.manual c)

/-- Every request was served, or what is recorded makes up for it. -/
structure Accounted (k : OwnerKey) (s : Tracked) : Prop where
  append : ∀ i : ℕ, s.asked[i]? = some .append →
    AppendServed s i ∨ (s.map.entry k).appendMissed = true
  manual : ∀ (i : ℕ) c, s.asked[i]? = some (.manual c) →
    ManualServed s i ∨ ∃ j c', Pending k s j c' ∧ Covers i j c'
  pending : ∀ m, (s.map.entry k).manualPending = some m → ∃ j c, m = .manual c ∧ Pending k s j c

/-- What is at a place of a list with one more element. -/
theorem getElem?_append_one {α : Type} {l : List α} {a b : α} {i : ℕ}
    (h : (l ++ [a])[i]? = some b) : l[i]? = some b ∨ (i = l.length ∧ a = b) := by
  rcases Nat.lt_trichotomy i l.length with hi | rfl | hi
  · rw [List.getElem?_append_left hi] at h
    exact .inl h
  · rw [List.getElem?_concat_length] at h
    exact .inr ⟨rfl, Option.some.inj h⟩
  · rw [List.getElem?_eq_none (by simp; omega)] at h
    cases h

/-- What is at a place stays there when a list grows. -/
theorem getElem?_append_of_some {α : Type} {l l' : List α} {b : α} {i : ℕ} (h : l[i]? = some b) :
    (l ++ l')[i]? = some b := by
  rw [List.getElem?_append_left (List.getElem?_eq_some_iff.1 h).1]
  exact h

section Grow

variable {k : OwnerKey} {s s' : Tracked} {new : List RebuildMode} {sent : List Dispatch} {i j : ℕ}
  {c : Option String}

theorem AppendServed.grow (h : AppendServed s i) (hd : s'.dispatched = s.dispatched ++ sent) :
    AppendServed s' i :=
  let ⟨d, hm, hd'⟩ := h
  ⟨d, hd ▸ List.mem_append_left _ hm, hd'⟩

theorem ManualServed.grow (h : ManualServed s i) (ha : s'.asked = s.asked ++ new)
    (hd : s'.dispatched = s.dispatched ++ sent) : ManualServed s' i :=
  let ⟨d, hm, hi, j, c, hc, hj, hask, hcov⟩ := h
  ⟨d, hd ▸ List.mem_append_left _ hm, hi, j, c, hc, hj, ha ▸ getElem?_append_of_some hask, hcov⟩

theorem Pending.grow (h : Pending k s j c) (ha : s'.asked = s.asked ++ new)
    (hp : (s'.map.entry k).manualPending = (s.map.entry k).manualPending)
    (ho : s'.pendingOf = s.pendingOf) : Pending k s' j c :=
  ⟨hp.trans h.1, ho.trans h.2.1, ha ▸ getElem?_append_of_some h.2.2⟩

/-- While the pending request stays, what was accounted for stays so. -/
theorem Accounted.manual_grow (h : Accounted k s) (ha : s'.asked = s.asked ++ new)
    (hd : s'.dispatched = s.dispatched ++ sent)
    (hp : (s'.map.entry k).manualPending = (s.map.entry k).manualPending)
    (ho : s'.pendingOf = s.pendingOf) (hi : s.asked[i]? = some (.manual c)) :
    ManualServed s' i ∨ ∃ j c', Pending k s' j c' ∧ Covers i j c' :=
  (h.manual i c hi).imp (·.grow ha hd) fun ⟨j, c', hP, hc⟩ => ⟨j, c', hP.grow ha hp ho, hc⟩

theorem Accounted.pending_grow (h : Accounted k s) (ha : s'.asked = s.asked ++ new)
    (hp : (s'.map.entry k).manualPending = (s.map.entry k).manualPending)
    (ho : s'.pendingOf = s.pendingOf) (m : RebuildMode)
    (hm : (s'.map.entry k).manualPending = some m) : ∃ j c, m = .manual c ∧ Pending k s' j c :=
  let ⟨j, c, hc, hP⟩ := h.pending m (hp ▸ hm)
  ⟨j, c, hc, hP.grow ha hp ho⟩

end Grow

variable {k : OwnerKey} {s s' : Tracked}

/-- Once an incoming manual request is merged, what is pending makes up for
    every request made so far. -/
theorem Accounted.merged (h : Accounted k s) {mode : RebuildMode} (hm : mode.IsManual)
    (ha : s'.asked = s.asked ++ [mode])
    (hp : (s'.map.entry k).manualPending =
      some (mergePending (s.map.entry k).manualPending mode))
    (ho : s'.pendingOf = mergedOf k s) :
    ∃ j c, Pending k s' j c ∧ ∀ i ≤ s.asked.length, Covers i j c := by
  rcases RebuildState.mergePending_cases (s.map.entry k).manualPending mode with ⟨h₁, h₂⟩ | ⟨h₁, h₂⟩
  · -- A rebuild of all concepts was pending: it stays so.
    obtain ⟨j, c, hc, hP⟩ := h.pending _ h₁
    cases hc
    refine ⟨j, none, ⟨hp.trans (congrArg some h₂), ?_, ha ▸ getElem?_append_of_some hP.2.2⟩,
      fun i _ => .inr (.inl rfl)⟩
    rw [ho, mergedOf, if_pos h₁, hP.2.1]
  · -- Otherwise the incoming request is pending, the latest of all.
    cases mode with
    | append => exact absurd hm id
    | manual c =>
      refine ⟨s.asked.length, c, ⟨hp.trans (congrArg some h₂), ?_, ?_⟩, fun i hi => ?_⟩
      · rw [ho, mergedOf, if_neg h₁]
      · rw [ha, List.getElem?_concat_length]
      · exact (Nat.eq_or_lt_of_le hi).elim (fun e => .inl e.symm) fun h => .inr (.inr h)

/-- A place that has an element is within the list. -/
theorem lt_of_getElem? {α : Type} {l : List α} {a : α} {i : ℕ} (h : l[i]? = some a) :
    i < l.length :=
  (List.getElem?_eq_some_iff.1 h).1

/-- What a request does to the history. -/
theorem noteRequest_cases (k : OwnerKey) (s : Tracked) (mode : RebuildMode) :
    (noteRequest k s mode).asked = s.asked ++ [mode] ∧
    ((mode = .append ∧ (noteRequest k s mode).dispatched = s.dispatched ∧
      (noteRequest k s mode).pendingOf = s.pendingOf ∧
      (noteRequest k s mode).map.entry k = { s.map.entry k with appendMissed := true }) ∨
    (mode.IsManual ∧ (noteRequest k s mode).dispatched = s.dispatched ∧
      (noteRequest k s mode).pendingOf = mergedOf k s ∧
      (noteRequest k s mode).map.entry k = { s.map.entry k with
        manualPending := some (mergePending (s.map.entry k).manualPending mode) }) ∨
    (mode.IsManual ∧
      (noteRequest k s mode).dispatched = s.dispatched ++ [⟨s.asked.length + 1, .append, none⟩] ∧
      (noteRequest k s mode).pendingOf = mergedOf k s ∧
      (noteRequest k s mode).map.entry k =
        ⟨true, some (mergePending (s.map.entry k).manualPending mode), false⟩) ∨
    ((mode.IsManual → (s.map.entry k).appendMissed = false) ∧
      (noteRequest k s mode).dispatched =
        s.dispatched ++ [⟨s.asked.length + 1, mode, some s.asked.length⟩] ∧
      (noteRequest k s mode).pendingOf = s.pendingOf ∧
      (noteRequest k s mode).map.entry k = ⟨true, (s.map.entry k).manualPending, false⟩)) := by
  obtain ⟨o, e', hs⟩ : ∃ o e', (s.map.entry k).tryStart mode = (o, e') := ⟨_, _, rfl⟩
  have ho : (s.map.tryStart k mode).1 = o := congrArg Prod.fst hs
  have he : (noteRequest k s mode).map.entry k = e' :=
    StateMap.tryStart_entry.trans (congrArg Prod.snd hs)
  rw [he, noteRequest, ho]
  obtain ⟨_, hm, rfl, h₂⟩ | ⟨_, hm, rfl, h₂⟩ | ⟨_, hm, _, rfl, h₂⟩ | ⟨_, hm, rfl, h₂⟩ :=
    RebuildState.tryStart_cases hs
  · exact ⟨rfl, .inl ⟨hm, rfl, rfl, h₂⟩⟩
  · exact ⟨rfl, .inr (.inl ⟨hm, rfl, rfl, h₂⟩)⟩
  -- what is dispatched is the missed append, and the request waits
  · have hne : RebuildMode.append ≠ mode := fun e => by subst e; exact hm
    rw [noteOutcome, if_neg hne]
    exact ⟨rfl, .inr (.inr (.inl ⟨hm, rfl, rfl, h₂⟩))⟩
  · rw [noteOutcome, if_pos rfl]
    exact ⟨rfl, .inr (.inr (.inr ⟨hm, rfl, rfl, h₂⟩))⟩

theorem Accounted.noteRequest (h : Accounted k s) (mode : RebuildMode) :
    Accounted k (noteRequest k s mode) := by
  obtain ⟨ha, ⟨hm, hd, ho, he⟩ | ⟨hm, hd, ho, he⟩ | ⟨hm, hd, ho, he⟩ | ⟨hm, hd, ho, he⟩⟩ :=
    noteRequest_cases k s mode
  · -- A missed append is recorded.
    subst hm
    have hp := congrArg RebuildState.manualPending he
    rw [← List.append_nil s.dispatched] at hd
    refine ⟨fun i _ => .inr (by rw [he]), fun i c hi => ?_, h.pending_grow ha hp ho⟩
    rcases getElem?_append_one (ha ▸ hi) with hi | ⟨_, hi⟩
    · exact h.manual_grow ha hd hp ho hi
    · cases hi
  · -- A manual request is merged with the pending one.
    obtain ⟨j, c, hP, hcov⟩ := h.merged hm ha (congrArg RebuildState.manualPending he) ho
    rw [← List.append_nil s.dispatched] at hd
    refine ⟨fun i hi => ?_, fun i c' hi => .inr ⟨j, c, hP, hcov i ?_⟩, fun m hm' => ?_⟩
    · rcases getElem?_append_one (ha ▸ hi) with hi | ⟨_, hi⟩
      · exact (h.append i hi).imp (·.grow hd) fun hmiss => by rw [he]; exact hmiss
      · subst hi
        exact absurd hm id
    · have := lt_of_getElem? hi
      rw [ha, List.length_append, List.length_singleton] at this
      omega
    · exact ⟨j, c, Option.some.inj (hm'.symm.trans hP.1), hP⟩
  · -- A manual request is merged, and the missed append is dispatched.
    obtain ⟨j, c, hP, hcov⟩ := h.merged hm ha (congrArg RebuildState.manualPending he) ho
    have hlt : ∀ {i : ℕ} {m}, (Requests.noteRequest k s mode).asked[i]? = some m →
        i < s.asked.length + 1 := fun hi => by
      simpa [ha] using lt_of_getElem? hi
    refine ⟨fun i hi => .inl ⟨_, hd ▸ List.mem_append_right _ (List.mem_singleton_self _), rfl,
      hlt hi⟩, fun i c' hi => .inr ⟨j, c, hP, hcov i (Nat.lt_succ_iff.1 (hlt hi))⟩,
      fun m hm' => ⟨j, c, Option.some.inj (hm'.symm.trans hP.1), hP⟩⟩
  · -- The request itself is dispatched.
    have hp := congrArg RebuildState.manualPending he
    have hlast := hd ▸ List.mem_append_right s.dispatched (List.mem_singleton_self _)
    refine ⟨fun i hi => ?_, fun i c hi => ?_, h.pending_grow ha hp ho⟩
    · rcases getElem?_append_one (ha ▸ hi) with hi' | ⟨rfl, hi'⟩
      · rcases h.append i hi' with h' | h'
        · exact .inl (h'.grow hd)
        · -- A missed append goes before a manual request, so this is an append.
          cases mode with
          | append => exact .inl ⟨_, hlast, rfl, Nat.lt_succ_of_lt (lt_of_getElem? hi')⟩
          | manual c => rw [hm trivial] at h'; cases h'
      · exact .inl ⟨_, hlast, hi', Nat.lt_succ_self _⟩
    · rcases getElem?_append_one (ha ▸ hi) with hi' | ⟨rfl, hi'⟩
      · exact h.manual_grow ha hd hp ho hi'
      · exact .inl ⟨_, hlast, Nat.lt_succ_self _, s.asked.length, c, hi', rfl, hi, .inl rfl⟩

/-! ## The end of a session -/

theorem Accounted.noteContinue (h : Accounted k s) : Accounted k (noteContinue k s) := by
  obtain ⟨c, e', hs⟩ : ∃ c e', (s.map.entry k).markIdleOrContinue = (c, e') := ⟨_, _, rfl⟩
  have hc : (s.map.markIdleOrContinue k).1 = c := congrArg Prod.fst hs
  have he : (Requests.noteContinue k s).map.entry k = e' :=
    StateMap.markIdleOrContinue_entry.trans (congrArg Prod.snd hs)
  rcases RebuildState.markIdleOrContinue_cases hs with ⟨_, rfl, h₂⟩ | ⟨hm, ⟨m, hp, rfl⟩, h₂⟩ |
    ⟨hm, hp, rfl, h₂⟩
  · -- The missed append is dispatched, after every request so far.
    have hp := congrArg RebuildState.manualPending (he.trans h₂)
    rw [Requests.noteContinue, hc] at hp ⊢
    have ha := (List.append_nil s.asked).symm
    exact ⟨fun i hi => .inl ⟨_, List.mem_append_right _ (List.mem_singleton_self _), rfl,
      lt_of_getElem? hi⟩, fun i c hi => h.manual_grow ha rfl hp rfl hi, h.pending_grow ha hp rfl⟩
  · -- The pending request is dispatched, and makes up for all that it did while pending.
    obtain ⟨j, c, rfl, hP⟩ := h.pending m hp
    have hp' := congrArg RebuildState.manualPending (he.trans h₂)
    rw [Requests.noteContinue, hc] at hp' ⊢
    have hlast := List.mem_append_right s.dispatched (List.mem_singleton_self
      (⟨s.asked.length, .manual c, s.pendingOf⟩ : Dispatch))
    refine ⟨fun i hi => ?_, fun i c' hi => ?_, fun m' hm' => ?_⟩
    · exact .inl (((h.append i hi).resolve_right (by simp [hm])).grow rfl)
    · rcases h.manual i c' hi with h' | ⟨j', c'', hP', hcov⟩
      · exact .inl (h'.grow (List.append_nil _).symm rfl)
      · obtain rfl : c = c'' := RebuildMode.manual.inj (Option.some.inj (hP.1.symm.trans hP'.1))
        exact .inl ⟨_, hlast, lt_of_getElem? hi, j', c, rfl, hP'.2.1, hP'.2.2, hcov⟩
    · rw [hp'] at hm'
      cases hm'
  · -- Nothing is recorded: the slot is released.
    have hp' := congrArg RebuildState.manualPending (he.trans h₂)
    rw [Requests.noteContinue, hc] at hp' ⊢
    have ha := (List.append_nil s.asked).symm
    have hd := (List.append_nil s.dispatched).symm
    exact ⟨fun i hi => .inl ((h.append i hi).resolve_right (by simp [hm])),
      fun i c hi => h.manual_grow ha hd hp' rfl hi, h.pending_grow ha hp' rfl⟩

/-! ## All runs -/

/-- What is accounted for stays so when only the map changes, and what it has
    recorded for `k` stays. -/
theorem Accounted.of_map (h : Accounted k s) {map : StateMap}
    (hp : (map.entry k).manualPending = (s.map.entry k).manualPending)
    (hm : (map.entry k).appendMissed = (s.map.entry k).appendMissed) :
    Accounted k { s with map := map } := by
  have ha := (List.append_nil s.asked).symm
  have hd := (List.append_nil s.dispatched).symm
  exact ⟨fun i hi => (h.append i hi).imp id fun h' => hm.trans h',
    fun i c hi => h.manual_grow ha hd hp rfl hi, h.pending_grow ha hp rfl⟩

/-- A call for another owner leaves the slot. -/
theorem entry_apply_of_ne (map : StateMap) {key : OwnerKey} (call : Call) (h : k ≠ key) :
    (call.apply map key).entry k = map.entry k :=
  congrArg (·.getD {}) (call.apply_of_ne h)

theorem Accounted.step (h : Accounted k s) {l : OwnerKey × Call} (hs : step k s l = some s') :
    Accounted k s' := by
  obtain ⟨key, call⟩ := l
  simp only [Requests.step] at hs
  split at hs
  · rename_i hk
    cases hs
    have he := entry_apply_of_ne s.map call (Ne.symm hk)
    exact h.of_map (by rw [he]) (by rw [he])
  · cases call with
    | tryStart mode => exact Option.some.inj hs ▸ h.noteRequest mode
    | markIdleOrContinue =>
      simp only [Option.ite_none_right_eq_some, Option.some.injEq] at hs
      exact hs.2 ▸ h.noteContinue
    | releaseRunningPreservePending =>
      simp only [Option.ite_none_right_eq_some, Option.some.injEq] at hs
      have he : (s.map.releaseRunningPreservePending k).entry k = _ :=
        StateMap.releaseRunningPreservePending_entry
      exact hs.2 ▸ h.of_map (by rw [he]; rfl) (by rw [he]; rfl)

/-- In every state reached, the requests are accounted for. -/
theorem reach_accounted (h : Reachable k s) : Accounted k s := by
  refine h.invariant (fun s hs => ?_) fun s l s' _ hs _ hst => hs.step hst
  subst hs
  exact ⟨fun i hi => by simp at hi, fun i c hi => by simp at hi, fun m hm => by
    simp [StateMap.entry] at hm⟩

/-- A rebuild of all concepts is pending for `k`. -/
def AllPending (k : OwnerKey) (s : Tracked) : Prop :=
  (s.map.entry k).manualPending = some (.manual none)

/-- A request for all pages stays pending while another one comes. -/
theorem AllPending.noteRequest (h : AllPending k s) (mode : RebuildMode) :
    AllPending k (noteRequest k s mode) ∧
      ∃ sent, (noteRequest k s mode).dispatched = s.dispatched ++ sent := by
  have hmerge : mergePending (s.map.entry k).manualPending mode = .manual none := by rw [h]; rfl
  obtain ⟨_, ⟨_, hd, _, he⟩ | ⟨_, hd, _, he⟩ | ⟨_, hd, _, he⟩ | ⟨_, hd, _, he⟩⟩ :=
    noteRequest_cases k s mode
  · exact ⟨(congrArg RebuildState.manualPending he).trans h, [], by simp [hd]⟩
  · exact ⟨(congrArg RebuildState.manualPending he).trans (congrArg some hmerge), [], by simp [hd]⟩
  · exact ⟨(congrArg RebuildState.manualPending he).trans (congrArg some hmerge), _, hd⟩
  · exact ⟨(congrArg RebuildState.manualPending he).trans h, _, hd⟩

/-- When a session ends, a request for all pages stays pending, or is dispatched. -/
theorem AllPending.noteContinue (h : AllPending k s) :
    ∃ sent, (noteContinue k s).dispatched = s.dispatched ++ sent ∧
      ((∃ d ∈ sent, d.mode = .manual none) ∨ AllPending k (noteContinue k s)) := by
  obtain ⟨c, e', hs⟩ : ∃ c e', (s.map.entry k).markIdleOrContinue = (c, e') := ⟨_, _, rfl⟩
  have hc : (s.map.markIdleOrContinue k).1 = c := congrArg Prod.fst hs
  have he : (Requests.noteContinue k s).map.entry k = e' :=
    StateMap.markIdleOrContinue_entry.trans (congrArg Prod.snd hs)
  rcases RebuildState.markIdleOrContinue_cases hs with ⟨_, rfl, h₂⟩ | ⟨_, ⟨m, hp, rfl⟩, _⟩ |
    ⟨_, hp, _, _⟩
  · refine ⟨[⟨s.asked.length, .append, none⟩], by rw [Requests.noteContinue, hc]; rfl, .inr ?_⟩
    exact (congrArg RebuildState.manualPending (he.trans h₂)).trans h
  · obtain rfl : m = .manual none := Option.some.inj (hp.symm.trans h)
    exact ⟨[⟨s.asked.length, .manual none, s.pendingOf⟩], by rw [Requests.noteContinue, hc]; rfl,
      .inl ⟨_, List.mem_singleton_self _, rfl⟩⟩
  · cases hp.symm.trans h

/-- A step leaves a pending rebuild of all concepts so, or dispatches it. -/
theorem AllPending.step (h : AllPending k s) {l : OwnerKey × Call} (hs : step k s l = some s') :
    ∃ sent, s'.dispatched = s.dispatched ++ sent ∧
      ((∃ d ∈ sent, d.mode = .manual none) ∨ AllPending k s') := by
  obtain ⟨key, call⟩ := l
  simp only [Requests.step] at hs
  split at hs
  · rename_i hk
    cases hs
    have he := entry_apply_of_ne s.map call (Ne.symm hk)
    exact ⟨[], by simp, .inr ((congrArg RebuildState.manualPending he).trans h)⟩
  · cases call with
    | tryStart mode =>
      cases hs
      obtain ⟨hp, sent, hd⟩ := h.noteRequest mode
      exact ⟨sent, hd, .inr hp⟩
    | markIdleOrContinue =>
      simp only [Option.ite_none_right_eq_some, Option.some.injEq] at hs
      exact hs.2 ▸ h.noteContinue
    | releaseRunningPreservePending =>
      simp only [Option.ite_none_right_eq_some, Option.some.injEq] at hs
      have he : (s.map.releaseRunningPreservePending k).entry k = _ :=
        StateMap.releaseRunningPreservePending_entry
      exact hs.2 ▸ ⟨[], by simp, .inr ((congrArg RebuildState.manualPending he).trans h)⟩

/-- A step only adds to what was dispatched. -/
theorem dispatched_step {l : OwnerKey × Call} (hs : step k s l = some s') :
    ∃ sent, s'.dispatched = s.dispatched ++ sent := by
  obtain ⟨key, call⟩ := l
  simp only [Requests.step] at hs
  split at hs
  · cases hs
    exact ⟨[], by simp⟩
  · cases call with
    | tryStart mode =>
      cases hs
      obtain ⟨_, ⟨_, hd, _⟩ | ⟨_, hd, _⟩ | ⟨_, hd, _⟩ | ⟨_, hd, _⟩⟩ := noteRequest_cases k s mode
      · exact ⟨[], by simp [hd]⟩
      · exact ⟨[], by simp [hd]⟩
      · exact ⟨_, hd⟩
      · exact ⟨_, hd⟩
    | markIdleOrContinue =>
      simp only [Option.ite_none_right_eq_some, Option.some.injEq] at hs
      rw [← hs.2, Requests.noteContinue]
      rcases (s.map.markIdleOrContinue k).1 with _ | _ | c
      · exact ⟨[], by simp [noteNext]⟩
      · exact ⟨_, rfl⟩
      · exact ⟨_, rfl⟩
    | releaseRunningPreservePending =>
      simp only [Option.ite_none_right_eq_some, Option.some.injEq] at hs
      exact hs.2 ▸ ⟨[], by simp⟩

/-- A run leaves a pending rebuild of all concepts so, or dispatches it. -/
theorem AllPending.run (h : AllPending k s)
    (hr : Reach (· = s) (Requests.step k) (fun _ _ => True) s') :
    ∃ sent, s'.dispatched = s.dispatched ++ sent ∧
      ((∃ d ∈ sent, d.mode = .manual none) ∨ AllPending k s') := by
  induction hr with
  | init hi => exact ⟨[], by simp [hi], .inr (hi ▸ h)⟩
  | step _ _ hst ih =>
    obtain ⟨sent, hd, hs | hp⟩ := ih
    · obtain ⟨d, hd'⟩ := dispatched_step hst
      obtain ⟨x, hx, hm⟩ := hs
      exact ⟨sent ++ d, by rw [hd', hd, List.append_assoc], .inl ⟨x, List.mem_append_left _ hx, hm⟩⟩
    · obtain ⟨d, hd', hor⟩ := hp.step hst
      refine ⟨sent ++ d, by rw [hd', hd, List.append_assoc], hor.imp_left ?_⟩
      exact fun ⟨x, hx, hm⟩ => ⟨x, List.mem_append_right _ hx, hm⟩

/-- A manual rebuild is not dispatched while a missed append is recorded. -/
theorem appendMissed_of_tryStart {map : StateMap} {key : OwnerKey} {mode : RebuildMode}
    {c : Option String} (h : (map.tryStart key mode).1 = .started (.manual c)) :
    (map.entry key).appendMissed = false := by
  have hs : (map.entry key).tryStart mode = (.started (.manual c), _) := Prod.ext h rfl
  rcases RebuildState.tryStart_cases hs with ⟨_, _, ho, _⟩ | ⟨_, _, ho, _⟩ | ⟨_, _, _, ho, _⟩ |
    ⟨_, hm, ho, _⟩
  · cases ho
  · cases ho
  · cases ho
  · exact hm (StartOutcome.started.inj ho ▸ trivial)

/-- A manual request is not dispatched while an append is recorded. -/
theorem appendMissed_of_markIdleOrContinue {map : StateMap} {key : OwnerKey} {c : Option String}
    (h : (map.markIdleOrContinue key).1 = some (.manual c)) :
    (map.entry key).appendMissed = false := by
  have hs : (map.entry key).markIdleOrContinue = (some (.manual c), _) := Prod.ext h rfl
  rcases RebuildState.markIdleOrContinue_cases hs with ⟨_, ho, _⟩ | ⟨hm, _⟩ | ⟨hm, _⟩
  · cases ho
  · exact hm
  · exact hm

/-- A slot is only released when nothing is recorded. -/
theorem nothing_recorded {map : StateMap} {key : OwnerKey}
    (h : (map.markIdleOrContinue key).1 = none) :
    (map.entry key).appendMissed = false ∧ (map.entry key).manualPending = none := by
  have hs : (map.entry key).markIdleOrContinue = (none, _) := Prod.ext h rfl
  rcases RebuildState.markIdleOrContinue_cases hs with ⟨_, ho, _⟩ | ⟨_, ⟨_, _, ho⟩, _⟩ |
    ⟨hm, hp, _⟩
  · cases ho
  · cases ho
  · exact ⟨hm, hp⟩

/-- No request is lost: when a slot is released at the end of a session, every
    request was dispatched or made up for; a manual rebuild does not go before
    a missed append; a pending rebuild of all concepts stays until it is
    dispatched; and the entries of other owners are left alone. -/
theorem no_request_lost (k : OwnerKey) :
    (∀ s, Reachable k s → (s.map.markIdleOrContinue k).1 = none →
      ∀ i : ℕ, (s.asked[i]? = some .append → AppendServed s i) ∧
        ∀ c, s.asked[i]? = some (.manual c) → ManualServed s i) ∧
    (∀ (map : StateMap) c, (∃ mode, (map.tryStart k mode).1 = .started (.manual c)) ∨
      (map.markIdleOrContinue k).1 = some (.manual c) → (map.entry k).appendMissed = false) ∧
    (∀ s s', Reachable k s → AllPending k s → Reach (· = s) (step k) (fun _ _ => True) s' →
      ∃ sent, s'.dispatched = s.dispatched ++ sent ∧
        ((∃ d ∈ sent, d.mode = .manual none) ∨ AllPending k s')) ∧
    ∀ (map : StateMap) key, key ≠ k →
      (∀ call : Call, call.apply map k key = map key) ∧ map.forceIdle k key = map key := by
  refine ⟨fun s hs hn i => ?_, fun map c h => ?_, fun s s' _ hp hr => AllPending.run hp hr,
    fun map key h => ⟨fun call => call.apply_of_ne h, StateMap.forceIdle_of_ne h⟩⟩
  · have hacc := reach_accounted hs
    obtain ⟨hm, hp⟩ := nothing_recorded hn
    refine ⟨fun hi => (hacc.append i hi).resolve_right (by simp [hm]), fun c hi => ?_⟩
    exact (hacc.manual i c hi).resolve_right fun ⟨_, _, hP, _⟩ => by cases hp.symm.trans hP.1
  · rcases h with ⟨mode, h⟩ | h
    · exact appendMissed_of_tryStart h
    · exact appendMissed_of_markIdleOrContinue h

/-- A run where an append and a manual request come while an append runs. -/
def mixedCalls (k : OwnerKey) : List (OwnerKey × Call) :=
  [.tryStart .append, .tryStart (.manual (some "alpha")), .tryStart .append, .tryStart (.manual none),
    .markIdleOrContinue, .markIdleOrContinue].map fun call => (k, call)

theorem no_request_lost_mixed : ∃ s, Reachable (.personal "u") s ∧
    s.asked = [.append, .manual (some "alpha"), .append, .manual none] ∧
    AppendServed s 0 ∧ ManualServed s 1 ∧ AppendServed s 2 ∧ ManualServed s 3 := by
  let k : OwnerKey := .personal "u"
  have hs : exec (step k) (fun _ _ => true) {} (mixedCalls k) = some _ := rfl
  have hr : Reachable k _ := Reach.exec (fun _ _ _ => trivial) (.init rfl) hs
  have h := (no_request_lost k).1 _ hr rfl
  exact ⟨_, hr, rfl, (h 0).1 rfl, (h 1).2 _ rfl, (h 2).1 rfl, (h 3).2 _ rfl⟩

end LlmMemory.Requests
