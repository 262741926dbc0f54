import Mathlib.Data.List.Sort
import LlmMemory.Coordinator.Operations

/-!
# The rebuild worker

The programs of a worker, on the operations of `LlmMemory.Coordinator.Operations`:

* `InputBuilder.build`: the raws a page is made from;
* `synthesizeOne`: the synthesis of the page of a concept;
* `runSession`: up to `MAX_ITERATIONS` iterations, each listing the raws newer
  than the watermark, and synthesizing the concepts they affect;
* `runWorker`: a turn of the loop of a worker, which is a session and the
  choice of what comes next (`Next`).
-/

namespace LlmMemory

open Effects

/-- The programs of a rebuild. -/
abbrev RebuildSig : Sig := ⟨Op, Op.Ans, SynthTask⟩

/-- A program of a rebuild, failing with a `CoordinatorError`. -/
abbrev Rebuild (α : Type) : Type := Attempt RebuildSig CoordinatorError α

/-- An operation that does not fail. -/
def perfOp (o : Op) : Rebuild o.Ans := Attempt.call o .ok

/-- A query, an error of which ends the program. -/
def query {α : Type} (o : Op) (result : o.Ans → Except CoordinatorError α) : Rebuild α :=
  Attempt.call o result

/-! ## The input of a synthesis -/

namespace InputBuilder

/-- The greatest number of raws that a synthesis is given. -/
def INPUT_LIMIT : ℕ := 50

/-- Whether the raw `id` is among those taken. -/
def seen (out : List Raw) (id : String) : Bool := out.any fun r => r.id = id

/-- Take the raws not taken yet, up to the limit. -/
def takeUnseen : List Raw → List Raw → List Raw
  | [], out => out
  | r :: rs, out =>
    if seen out r.id then takeUnseen rs out
    else if INPUT_LIMIT ≤ (out ++ [r]).length then out ++ [r]
    else takeUnseen rs (out ++ [r])

/-- Load the raws that the references name, up to the limit. -/
def loadRefs : List String → List Raw → Rebuild (List Raw)
  | [], out => pure out
  | ref :: refs, out =>
    if seen out ref then loadRefs refs out
    else do
      match ← query (.rawsGet ref) id with
      | none => loadRefs refs out
      | some r =>
        if INPUT_LIMIT ≤ (out ++ [r]).length then pure (out ++ [r])
        else loadRefs refs (out ++ [r])

/-- The input raws of the synthesis of a concept: those its page refers to, then
    the new ones, then those found by its name, up to the limit. -/
def build (key : OwnerKey) (concept : String) (existingSourceRefs : List String)
    (newRaws : List Raw) : Rebuild (List Raw) := do
  let out ← loadRefs existingSourceRefs []
  if INPUT_LIMIT ≤ out.length then pure out
  else
    let out := takeUnseen newRaws out
    if INPUT_LIMIT ≤ out.length then pure out
    else do
      let remaining := INPUT_LIMIT - out.length
      let hits ← query (.searchRaws ⟨concept, some key.scope, some key.ownerId, remaining * 2⟩) id
      pure (takeUnseen hits out)

end InputBuilder

/-! ## The synthesis of a page -/

/-- Ask the model for the page of a concept. -/
def synthesize (key : OwnerKey) (concept : String) (existingWiki : Option String)
    (raws : List (String × String × String)) : Rebuild WikiSynth := do
  let _ ← perfOp (.prompt key (.synthesize concept existingWiki raws))
  query .synthesized id

/-- Synthesize the page of a concept. The references of the answer are kept as
    far as they name raws of its input. -/
def synthesizeOne (t : SynthTask) : Rebuild Unit := do
  let existingWiki ← query (.wikiGet t.key t.concept) id
  let existingRefs := (existingWiki.map (·.sourceRefs)).getD []
  let inputs ← InputBuilder.build t.key t.concept existingRefs t.newRaws
  let _ ← perfOp (.built ⟨t, existingRefs, inputs⟩)
  let result ← synthesize t.key t.concept (existingWiki.map (·.content))
    (inputs.map fun r => (r.id, r.title, r.content))
  let filteredRefs := result.sourceRefs.filter (InputBuilder.seen inputs)
  query (.wikiUpsert t.key t.concept result.content filteredRefs t.startedAt) id

/-- A task of an iteration: an error in it is logged, and ends it only. -/
def synthesizeTask (t : SynthTask) : Prog RebuildSig Unit :=
  Prog.bind (fun _ => .ret ()) (synthesizeOne t)

/-! ## A session -/

/-- The greatest number of iterations of a session. -/
def MAX_ITERATIONS : ℕ := 10
/-- The greatest number of concepts of an owner. -/
def CONCEPT_LIMIT_PER_OWNER : Int := 200
/-- How many concepts are synthesized at once. -/
def CONCEPT_CONCURRENCY : ℕ := 4
/-- As many sessions in a row that were cut short make the worker look for what remains. -/
def MAX_CONSECUTIVE_CAPS : ℕ := 3

/-- How a session ends: nothing more is to be done, or it was cut short after its last
    iteration. -/
inductive SessionOutcome
  | done
  | drainCapped
  deriving DecidableEq, Repr

/-- Ask the model for the concepts that the new raws affect. -/
def extract (key : OwnerKey) (newRaws : List Raw) (existingConcepts : List String) :
    Rebuild AffectedConcepts := do
  let _ ← perfOp (.prompt key (.extract (newRaws.map fun r => (r.title, r.content)) existingConcepts))
  query (.extracted key newRaws) id

/-- The concepts to synthesize after an extraction, in order: those affected
    that exist, and new ones up to the limit, of valid names. -/
def affectedOf (existingConcepts : List String) (extracted : AffectedConcepts)
    (currentCount : Int) : List String :=
  let affected := (extracted.affectedExisting.filter Concept.isValid).filter (· ∈ existingConcepts)
  let remaining := (max (CONCEPT_LIMIT_PER_OWNER - currentCount) 0).toNat
  let validNew := extracted.newConcepts.filter Concept.isValid
  ((affected ++ validNew.take remaining).dedup).insertionSort (· ≤ ·)

/-- What an iteration is to do: end the session, go on with an append, or
    synthesize some concepts. -/
inductive Plan
  | drained
  | rejected
  | synthesize (affected : List String)

/-- The concepts an iteration is to synthesize. -/
def plan (key : OwnerKey) (newRaws : List Raw) (existingConcepts : List String) :
    RebuildMode → Rebuild Plan
  | .append =>
    -- nothing was appended since the watermark
    if newRaws.isEmpty then pure .drained
    else do
      let extracted ← extract key newRaws existingConcepts
      let currentCount ← query (.countConcepts key) id
      pure (.synthesize (affectedOf existingConcepts extracted currentCount))
  | .manual (some c) =>
    if c ∈ existingConcepts then pure (.synthesize [c])
    else do
      let currentCount ← query (.countConcepts key) id
      if CONCEPT_LIMIT_PER_OWNER ≤ currentCount then pure .rejected
      else pure (.synthesize [c])
  -- every page there is, and no new one
  | .manual none => pure (.synthesize existingConcepts)

/-- Synthesize concepts, `CONCEPT_CONCURRENCY` at a time. -/
def synthesizeConcepts (key : OwnerKey) (affected : List String) (newRaws : List Raw)
    (startedAt : Int) : Rebuild Unit :=
  Attempt.fork CONCEPT_CONCURRENCY (affected.map fun c => ⟨key, c, newRaws, startedAt⟩)

/-- The iterations of a session, as many as are left. All but the first are
    appends. -/
def iterate (key : OwnerKey) : ℕ → RebuildMode → Rebuild SessionOutcome
  | 0, _ => pure .done
  | left + 1, mode => do
    let startedAt ← perfOp (.startSession key mode)
    let watermark ← query (.maxLastRebuiltAt key) id
    let newRaws ← query (.listSince key watermark startedAt) id
    let existingConcepts ← query (.listConcepts key) id
    match ← plan key newRaws existingConcepts mode with
    | .drained => pure .done
    | .rejected => iterate key left .append
    | .synthesize affected =>
      if affected.isEmpty then pure .done
      else do
        synthesizeConcepts key affected newRaws startedAt
        -- the last of the iterations
        if left = 0 then pure .drainCapped else iterate key left .append

/-- A session: its first iteration in the mode it is started in. -/
def runSession (key : OwnerKey) (startingMode : RebuildMode) : Rebuild SessionOutcome :=
  iterate key MAX_ITERATIONS startingMode

/-! ## The loop of a worker -/

/-- The variables of the loop of a worker. -/
structure Locals where
  mode : RebuildMode
  consecutiveCaps : ℕ := 0
  remainderDrainUsed : Bool := false
  deriving DecidableEq, Repr

/-- How the loop goes on after a session: with another one at once, or with
    what is recorded, if anything is. -/
inductive Next
  | again (l : Locals)
  | markIdleOrContinue (consecutiveCaps : ℕ) (remainderDrainUsed : Bool)

/-- What remains to be listed, if the lookup succeeds. -/
def lookupRemaining (key : OwnerKey) (watermark : Int) : Rebuild (Option (List Raw)) := do
  let now ← perfOp .nowMs
  Attempt.call (.lookupRemaining key watermark now) fun r => .ok r.toOption

/-- A turn of the loop of a worker. After as many sessions cut short as
    `MAX_CONSECUTIVE_CAPS`, it goes on with what is recorded, but for one more
    append if raws remain. -/
def runWorker (key : OwnerKey) (l : Locals) : Rebuild Next := do
  match ← runSession key l.mode with
  | .done => pure (.markIdleOrContinue 0 l.remainderDrainUsed)
  | .drainCapped =>
    let consecutiveCaps := l.consecutiveCaps + 1
    if MAX_CONSECUTIVE_CAPS ≤ consecutiveCaps then do
      let watermark ← query (.maxLastRebuiltAt key) id
      let remaining ← lookupRemaining key watermark
      -- a lookup that fails counts as one that found some
      let remainderPresent := (remaining.map fun rs => decide (0 < rs.length)).getD true
      if remainderPresent ∧ !l.remainderDrainUsed then pure (.again ⟨.append, 0, true⟩)
      else pure (.markIdleOrContinue consecutiveCaps l.remainderDrainUsed)
    else pure (.again ⟨.append, consecutiveCaps, l.remainderDrainUsed⟩)

/-! ## The operations of a worker -/

/-- The operation is about the owner `k`, or about none. -/
def Op.Concerns (k : OwnerKey) : Op → Prop
  | .startSession key _ => key = k
  | .maxLastRebuiltAt key => key = k
  | .listSince key _ _ => key = k
  | .lookupRemaining key _ _ => key = k
  | .listConcepts key => key = k
  | .countConcepts key => key = k
  | .wikiGet key _ => key = k
  | .built i => i.task.key = k
  | .prompt key _ => key = k
  | .extracted key _ => key = k
  | .wikiUpsert key _ _ _ _ => key = k
  | .nowMs | .rawsGet _ | .searchRaws _ | .synthesized => True

section Only

open Attempt.Only

variable {k : OwnerKey} {T : List SynthTask → Prop}

theorem InputBuilder.loadRefs_only {P : Op → Prop} (hget : ∀ id, P (.rawsGet id))
    (refs : List String) (out : List Raw) : (loadRefs refs out).Only P T := by
  induction refs generalizing out with
  | nil => exact pure
  | cons ref refs ih =>
    rw [loadRefs]
    split
    · exact ih out
    · refine andThen (call (hget ref)) fun r => ?_
      cases r with
      | none => exact ih out
      | some r =>
        dsimp only
        split
        · exact pure
        · exact ih _

theorem InputBuilder.build_only {P : Op → Prop} (hget : ∀ id, P (.rawsGet id))
    (hsearch : ∀ q, P (.searchRaws q)) {concept : String} {refs : List String}
    {newRaws : List Raw} : (build k concept refs newRaws).Only P T := by
  refine andThen (loadRefs_only hget refs []) fun out => ?_
  dsimp only
  split
  · exact pure
  · split
    · exact pure
    · exact andThen (call (hsearch _)) fun _ => pure

theorem synthesizeOne_only {t : SynthTask} (h : t.key = k) :
    (synthesizeOne t).Only (Op.Concerns k) T := by
  subst h
  refine andThen (call rfl) fun w => ?_
  refine andThen (InputBuilder.build_only (fun _ => trivial) fun _ => trivial) fun inputs =>
    andThen (call rfl) fun _ => ?_
  exact andThen (andThen (call rfl) fun _ => call trivial) fun result => call rfl

theorem synthesizeTask_only {t : SynthTask} (h : t.key = k) :
    (synthesizeTask t).Only (Op.Concerns k) fun _ => False :=
  Prog.Only.bind (synthesizeOne_only h) fun _ => trivial

theorem plan_only {newRaws : List Raw} {existing : List String} (mode : RebuildMode) :
    (plan k newRaws existing mode).Only (Op.Concerns k) T := by
  cases mode with
  | append =>
    rw [plan]
    split
    · exact pure
    · refine andThen (andThen (call rfl) fun _ => call rfl) fun _ => ?_
      exact andThen (call rfl) fun _ => pure
  | manual c =>
    cases c with
    | none => exact pure
    | some c =>
      rw [plan]
      split
      · exact pure
      · refine andThen (call rfl) fun n => ?_
        split <;> exact pure

theorem iterate_only (left : ℕ) (mode : RebuildMode) :
    (iterate k left mode).Only (Op.Concerns k) fun ts : List SynthTask => ∀ t ∈ ts, t.key = k := by
  induction left generalizing mode with
  | zero => exact pure
  | succ left ih =>
    refine andThen (call rfl) fun startedAt => andThen (call rfl) fun watermark =>
      andThen (call rfl) fun newRaws => andThen (call rfl) fun existing =>
      andThen (plan_only mode) fun p => ?_
    cases p with
    | drained => exact pure
    | rejected => exact ih _
    | synthesize affected =>
      show Attempt.Only _ _ (if affected.isEmpty then _ else _)
      split
      · exact pure
      · refine andThen (fork fun t ht => ?_) fun _ => ?_
        · obtain ⟨c, _, rfl⟩ := List.mem_map.1 ht
          rfl
        · split
          · exact pure
          · exact ih _

/-- A worker only does operations about its owner. -/
theorem runWorker_only (l : Locals) :
    (runWorker k l).Only (Op.Concerns k) fun ts : List SynthTask => ∀ t ∈ ts, t.key = k := by
  refine andThen (iterate_only _ _) fun outcome => ?_
  cases outcome with
  | done => exact pure
  | drainCapped =>
    dsimp only
    split
    · refine andThen (call rfl) fun _ => andThen (andThen (call trivial) fun _ => call rfl) fun _ => ?_
      split <;> exact pure
    · exact pure

end Only

end LlmMemory
