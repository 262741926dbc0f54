import Mathlib.Logic.Function.Basic
import LlmMemory.Core

/-!
# The state of rebuilds

For every owner, whether a rebuild worker holds its *slot* (`running`), and
what was requested meanwhile: a pending manual rebuild and whether an append
was missed (`RebuildState`). A `StateMap` has one such entry for each owner;
an owner without one has the default entry.

Each operation is done under the lock of the map, hence at once. It is given on
the entry of its owner first, with what it does case by case
(`tryStart_cases`, `markIdleOrContinue_cases`), then on the map, of which it
changes no other entry.
-/

namespace LlmMemory

/-- What a rebuild is for: the raws appended, or a concept, or all of them. -/
inductive RebuildMode
  | append
  | manual (concept : Option String)
  deriving DecidableEq, Repr

/-- A manual rebuild, of a concept or of all. -/
def RebuildMode.IsManual : RebuildMode → Prop
  | .append => False
  | .manual _ => True

instance : DecidablePred RebuildMode.IsManual
  | .append => .isFalse id
  | .manual _ => .isTrue trivial

/-- The slot of an owner: whether a worker runs, and what was requested meanwhile. -/
structure RebuildState where
  running : Bool := false
  manualPending : Option RebuildMode := none
  appendMissed : Bool := false
  deriving DecidableEq, Repr

/-- What came of a request: a worker is started, possibly for another mode, or one runs
    already, or the request is pending. -/
inductive StartOutcome
  | started (mode : RebuildMode)
  | alreadyRunning
  | pending
  deriving DecidableEq, Repr

/-- A pending request and an incoming one, as one: a rebuild of all concepts
    if either is, and otherwise the incoming one. -/
def mergePending : Option RebuildMode → RebuildMode → RebuildMode
  | some (.manual none), _ => .manual none
  | _, .manual none => .manual none
  | _, m => m

namespace RebuildState

/-- Claim the slot of an owner for `mode`, or record the request if the slot is
    held. A missed append goes before a manual rebuild. -/
def tryStart (e : RebuildState) (mode : RebuildMode) : StartOutcome × RebuildState :=
  if e.running then
    match mode with
    | .manual concept => (.pending,
        { e with manualPending := some (mergePending e.manualPending (.manual concept)) })
    | .append => (.alreadyRunning, { e with appendMissed := true })
  -- the missed append is done first, and the request waits for its end
  else if e.appendMissed ∧ mode.IsManual then
    (.started .append, { running := true, appendMissed := false,
                         manualPending := some (mergePending e.manualPending mode) })
  else if e.appendMissed ∧ mode = .append then
    (.started mode, { e with running := true, appendMissed := false })
  else (.started mode, { e with running := true })

/-- At the end of a session, the mode to continue with, or the release of the
    slot if there is none. -/
def markIdleOrContinue (e : RebuildState) : Option RebuildMode × RebuildState :=
  if e.appendMissed then (some .append, { e with appendMissed := false })
  else match e.manualPending with
    | some m => (some m, { e with manualPending := none })
    | none => (none, { e with running := false })

/-- Release the slot after a panic, dropping the requests recorded. -/
def forceIdle (_ : RebuildState) : RebuildState := {}

/-- Release the slot after an error, keeping the requests recorded. -/
def releaseRunningPreservePending (e : RebuildState) : RebuildState := { e with running := false }

variable {e e' : RebuildState} {mode : RebuildMode} {o : StartOutcome}

/-- What a request does: it is recorded if the slot is held, and otherwise
    starts itself, or an append that was missed. -/
theorem tryStart_cases (h : e.tryStart mode = (o, e')) :
    (e.running = true ∧ mode = .append ∧ o = .alreadyRunning ∧
      e' = { e with appendMissed := true }) ∨
    (e.running = true ∧ mode.IsManual ∧ o = .pending ∧
      e' = { e with manualPending := some (mergePending e.manualPending mode) }) ∨
    (e.running = false ∧ mode.IsManual ∧ e.appendMissed = true ∧ o = .started .append ∧
      e' = ⟨true, some (mergePending e.manualPending mode), false⟩) ∨
    (e.running = false ∧ (mode.IsManual → e.appendMissed = false) ∧ o = .started mode ∧
      e' = ⟨true, e.manualPending, false⟩) := by
  obtain ⟨_ | _, p, _ | _⟩ := e <;> cases mode <;>
    simp_all [tryStart, RebuildMode.IsManual, eq_comm]

/-- What the end of a session does: it continues with a missed append, else
    with the pending request, else releases the slot. -/
theorem markIdleOrContinue_cases {c : Option RebuildMode}
    (h : e.markIdleOrContinue = (c, e')) :
    (e.appendMissed = true ∧ c = some .append ∧ e' = { e with appendMissed := false }) ∨
    (e.appendMissed = false ∧ (∃ m, e.manualPending = some m ∧ c = some m) ∧
      e' = { e with manualPending := none }) ∨
    (e.appendMissed = false ∧ e.manualPending = none ∧ c = none ∧
      e' = { e with running := false }) := by
  obtain ⟨r, _ | _, _ | _⟩ := e <;> simp_all [markIdleOrContinue, eq_comm]

/-- The merged request is the one that was pending, for all concepts, or the
    incoming one. -/
theorem mergePending_cases (p : Option RebuildMode) (mode : RebuildMode) :
    (p = some (.manual none) ∧ mergePending p mode = .manual none) ∨
      (p ≠ some (.manual none) ∧ mergePending p mode = mode) := by
  unfold mergePending
  split
  · exact .inl ⟨rfl, rfl⟩
  · rename_i h
    exact .inr ⟨fun e => h e, rfl⟩
  · rename_i h _
    exact .inr ⟨fun e => h e, rfl⟩

end RebuildState

/-- The entries of the owners, under one lock. -/
abbrev StateMap := OwnerKey → Option RebuildState

namespace StateMap

/-- The entry of an owner, or the default one. -/
def entry (map : StateMap) (key : OwnerKey) : RebuildState := (map key).getD {}

/-- A request for an owner. -/
def tryStart (map : StateMap) (key : OwnerKey) (mode : RebuildMode) : StartOutcome × StateMap :=
  let (o, e) := (map.entry key).tryStart mode
  (o, Function.update map key (some e))

/-- The session of an owner is over: what is recorded is taken, or the slot is released. -/
def markIdleOrContinue (map : StateMap) (key : OwnerKey) : Option RebuildMode × StateMap :=
  let (c, e) := (map.entry key).markIdleOrContinue
  (c, Function.update map key (some e))

/-- The slot of an owner is released, and what is recorded is dropped. -/
def forceIdle (map : StateMap) (key : OwnerKey) : StateMap :=
  Function.update map key ((map key).map RebuildState.forceIdle)

/-- The slot of an owner is released, and what is recorded is kept. -/
def releaseRunningPreservePending (map : StateMap) (key : OwnerKey) : StateMap :=
  Function.update map key ((map key).map RebuildState.releaseRunningPreservePending)

/-- A worker runs for the owner. -/
def isRunning (map : StateMap) (key : OwnerKey) : Bool := (map.entry key).running

variable {map : StateMap} {key key' : OwnerKey} {mode : RebuildMode}

@[simp] theorem entry_update_self (e : RebuildState) :
    entry (Function.update map key (some e)) key = e := by
  simp [entry]

@[simp] theorem entry_update_of_ne {e : Option RebuildState} (h : key' ≠ key) :
    entry (Function.update map key e) key' = map.entry key' := by
  simp [entry, h]

theorem tryStart_entry :
    (map.tryStart key mode).2.entry key = ((map.entry key).tryStart mode).2 := by
  simp [tryStart]

theorem markIdleOrContinue_entry :
    (map.markIdleOrContinue key).2.entry key = (map.entry key).markIdleOrContinue.2 := by
  simp [markIdleOrContinue]

theorem forceIdle_entry : (map.forceIdle key).entry key = {} := by
  simp only [forceIdle, entry, Function.update_self]
  cases map key <;> rfl

theorem releaseRunningPreservePending_entry :
    (map.releaseRunningPreservePending key).entry key =
      (map.entry key).releaseRunningPreservePending := by
  simp only [releaseRunningPreservePending, entry, Function.update_self]
  cases map key <;> rfl

/-- A request for one owner leaves the slots of the others. -/
theorem tryStart_of_ne (h : key' ≠ key) : (map.tryStart key mode).2 key' = map key' := by
  simp [tryStart, h]

theorem markIdleOrContinue_of_ne (h : key' ≠ key) :
    (map.markIdleOrContinue key).2 key' = map key' := by
  simp [markIdleOrContinue, h]

theorem forceIdle_of_ne (h : key' ≠ key) : map.forceIdle key key' = map key' := by
  simp [forceIdle, h]

theorem releaseRunningPreservePending_of_ne (h : key' ≠ key) :
    map.releaseRunningPreservePending key key' = map key' := by
  simp [releaseRunningPreservePending, h]

end StateMap

end LlmMemory
