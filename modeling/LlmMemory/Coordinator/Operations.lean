import LlmMemory.Coordinator.State
import LlmMemory.Lib.Effects
import LlmMemory.Storage

/-!
# The operations of a rebuild

What a rebuild worker does between two points where it may be suspended: a
query, a prompt, the answer to one, a read of the clock (`Op`), on the state
it shares with everything else (`Shared`), and what each does there
(`perform`). A query or a prompt may fail, leaving the database as it is.

The state also keeps the history that the properties are about (`History`): it
is written by the operations and read by none.
-/

namespace LlmMemory

open Effects

/-- An error of a worker: of the database, or of the language model. -/
inductive CoordinatorError
  | storage
  | llm
  deriving DecidableEq, Repr

/-- What the extraction answers: the concepts affected among those existing,
    and new ones. -/
structure AffectedConcepts where
  affectedExisting : List String
  newConcepts : List String
  deriving DecidableEq, Repr

/-- What the synthesis answers: the page, and the ids of the raws it refers to. -/
structure WikiSynth where
  content : String
  sourceRefs : List String
  deriving DecidableEq, Repr

/-- A prompt, by the data its text is made of. -/
inductive Prompt
  | extract (newRaws : List (String × String)) (existingConcepts : List String)
  | synthesize (concept : String) (existingWiki : Option String)
      (raws : List (String × String × String))
  deriving DecidableEq, Repr

/-- The synthesis of the page of a concept, as a task of an iteration. -/
structure SynthTask where
  key : OwnerKey
  concept : String
  newRaws : List Raw
  startedAt : Int
  deriving DecidableEq, Repr

/-- The input raws of a synthesis, and the references its page had. -/
structure SynthInput where
  task : SynthTask
  existingRefs : List String
  inputs : List Raw
  deriving DecidableEq, Repr

/-- What a worker does outside of itself: it reads the clock, queries the database, prompts
    the language model, and writes pages; what it is given and what it reads is noted. -/
inductive Op
  | startSession (key : OwnerKey) (mode : RebuildMode)
  | nowMs
  | maxLastRebuiltAt (key : OwnerKey)
  | listSince (key : OwnerKey) (since «until» : Int)
  | lookupRemaining (key : OwnerKey) (since «until» : Int)
  | listConcepts (key : OwnerKey)
  | countConcepts (key : OwnerKey)
  | wikiGet (key : OwnerKey) (concept : String)
  | rawsGet (id : String)
  | searchRaws (q : Search.SearchQuery)
  | built (i : SynthInput)
  | prompt (key : OwnerKey) (p : Prompt)
  | extracted (key : OwnerKey) (newRaws : List Raw)
  | synthesized
  | wikiUpsert (key : OwnerKey) (concept content : String) (sourceRefs : List String)
      (lastRebuiltAt : Int)

/-- What each of these gives. -/
def Op.Ans : Op → Type
  | .startSession _ _ => Int
  | .nowMs => Int
  | .maxLastRebuiltAt _ => Except CoordinatorError Int
  | .listSince _ _ _ => Except CoordinatorError (List Raw)
  | .lookupRemaining _ _ _ => Except CoordinatorError (List Raw)
  | .listConcepts _ => Except CoordinatorError (List String)
  | .countConcepts _ => Except CoordinatorError Int
  | .wikiGet _ _ => Except CoordinatorError (Option Wiki)
  | .rawsGet _ => Except CoordinatorError (Option Raw)
  | .searchRaws _ => Except CoordinatorError (List Raw)
  | .built _ => Unit
  | .prompt _ _ => Unit
  | .extracted _ _ => Except CoordinatorError AffectedConcepts
  | .synthesized => Except CoordinatorError WikiSynth
  | .wikiUpsert _ _ _ _ _ => Except CoordinatorError Unit

/-! ## The shared state -/

/-- What happened so far: the inputs built; the prompts issued, for whom; the
    raws extracted; the pages written; the users deleted; whose manual rebuild
    was dispatched and has not read the clock yet; and the time up to which the
    raws of an owner were listed for an append, or taken as listed by a manual
    rebuild. -/
structure History where
  built : List SynthInput := []
  prompts : List (OwnerKey × Prompt) := []
  extracted : List (OwnerKey × List Raw) := []
  written : List Wiki := []
  deleted : List String := []
  manualStarting : OwnerKey → Bool := fun _ => false
  settledUntil : OwnerKey → Int := fun _ => 0

/-- The clock, the database, the states of the rebuilds, the gauge of the
    workers in flight, and what happened. -/
structure Shared where
  now : Int
  db : Db
  map : StateMap := fun _ => none
  inFlight : Int := 0
  hist : History := {}

/-- How an operation comes out: done, failed, or with an answer of the model. -/
inductive Input
  | ok
  | fail
  | affected (a : AffectedConcepts)
  | synth (w : WikiSynth)

/-- The answer of a query that may fail. -/
def answer {α : Type} (a : α) : Input → Option (Except CoordinatorError α)
  | .ok => some (.ok a)
  | .fail => some (.error .storage)
  | _ => none

namespace Shared

/-- The raws of `key` created up to `t` are settled. -/
def noteSettled (s : Shared) (key : OwnerKey) (t : Int) : Shared :=
  { s with hist := { s.hist with
      settledUntil := Function.update s.hist.settledUntil key (max t (s.hist.settledUntil key)) } }

/-- An iteration of `key` read the clock. A manual one does not extract the raws
    created before, and takes them as settled. -/
def noteStarted (s : Shared) (key : OwnerKey) (mode : RebuildMode) : Shared :=
  { s with hist := { s.hist with
      manualStarting := Function.update s.hist.manualStarting key false,
      settledUntil := if mode.IsManual then
          Function.update s.hist.settledUntil key (max s.now (s.hist.settledUntil key))
        else s.hist.settledUntil } }

/-- An input was built. -/
def noteBuilt (s : Shared) (i : SynthInput) : Shared :=
  { s with hist := { s.hist with built := s.hist.built ++ [i] } }

/-- A prompt was issued for an owner. -/
def notePrompt (s : Shared) (key : OwnerKey) (p : Prompt) : Shared :=
  { s with hist := { s.hist with prompts := s.hist.prompts ++ [(key, p)] } }

/-- The raws of an owner were extracted. -/
def noteExtracted (s : Shared) (key : OwnerKey) (newRaws : List Raw) : Shared :=
  { s with hist := { s.hist with extracted := s.hist.extracted ++ [(key, newRaws)] } }

/-- The upsert of a page. -/
def upsertWiki (s : Shared) (key : OwnerKey) (concept content : String) (refs : List String)
    (t : Int) : Shared :=
  { s with
    db := Wikis.upsert s.db key concept content refs t,
    hist := { s.hist with
      written := s.hist.written ++ [⟨key.scope, key.ownerId, concept, content, refs, t⟩] } }

end Shared

/-- The answer of an operation, and the state after it. -/
def perform (fts : Fts) (input : Input) : (o : Op) → Shared → Option (o.Ans × Shared)
  | .startSession key mode, s => some (s.now, s.noteStarted key mode)
  | .nowMs, s => some (s.now, s)
  | .maxLastRebuiltAt key, s => (answer (Wikis.maxLastRebuiltAt s.db key) input).map (·, s)
  | .listSince key since t, s =>
    let rows := Raws.listSince s.db key since t
    match input with
    | .ok => some (.ok rows, if rows.isEmpty then s else s.noteSettled key t)
    | .fail => some (.error .storage, s)
    | _ => none
  | .lookupRemaining key since t, s => (answer (Raws.listSince s.db key since t) input).map (·, s)
  | .listConcepts key, s => (answer (Wikis.listConcepts s.db key) input).map (·, s)
  | .countConcepts key, s => (answer (Wikis.countConcepts s.db key) input).map (·, s)
  | .wikiGet key concept, s => (answer (Wikis.get s.db key concept) input).map (·, s)
  | .rawsGet id, s => (answer (Raws.get s.db id) input).map (·, s)
  | .searchRaws q, s => (answer (Search.raws fts s.db q) input).map (·, s)
  -- these two only leave a note in the history
  | .built i, s => some ((), s.noteBuilt i)
  | .prompt key p, s => some ((), s.notePrompt key p)
  | .extracted key newRaws, s =>
    match input with
    | .affected a => some (.ok a, s.noteExtracted key newRaws)
    | .fail => some (.error .llm, s)
    | _ => none
  | .synthesized, s =>
    match input with
    | .synth w => some (.ok w, s)
    | .fail => some (.error .llm, s)
    | _ => none
  | .wikiUpsert key concept content refs t, s =>
    match input with
    | .ok => some (.ok (), s.upsertWiki key concept content refs t)
    | .fail => some (.error .storage, s)
    | _ => none

/-! ## What an operation changes -/

/-- The changes an operation may make. Queries make none. -/
inductive Op.Writes : Op → Shared → Shared → Prop
  | startSession {key : OwnerKey} {mode : RebuildMode} {s : Shared} :
      Writes (.startSession key mode) s (s.noteStarted key mode)
  | listSince {key : OwnerKey} {since t : Int} {s : Shared} :
      Raws.listSince s.db key since t ≠ [] → Writes (.listSince key since t) s (s.noteSettled key t)
  | built {i : SynthInput} {s : Shared} : Writes (.built i) s (s.noteBuilt i)
  | prompt {key : OwnerKey} {p : Prompt} {s : Shared} :
      Writes (.prompt key p) s (s.notePrompt key p)
  | extracted {key : OwnerKey} {newRaws : List Raw} {s : Shared} :
      Writes (.extracted key newRaws) s (s.noteExtracted key newRaws)
  | wikiUpsert {key : OwnerKey} {concept content : String} {refs : List String} {t : Int}
      {s : Shared} :
      Writes (.wikiUpsert key concept content refs t) s (s.upsertWiki key concept content refs t)

variable {fts : Fts} {input : Input} {s s' : Shared}

theorem answer_state {α : Type} {a : α} {r : Except CoordinatorError α}
    (h : (answer a input).map (·, s) = some (r, s')) :
    s' = s ∧ (r = .ok a ∨ r = .error .storage) := by
  cases input with
  | ok => cases h; exact ⟨rfl, .inl rfl⟩
  | fail => cases h; exact ⟨rfl, .inr rfl⟩
  | affected a => cases h
  | synth w => cases h

/-- An operation leaves the state as it is, or makes its change. -/
theorem perform_state {o : Op} {r : o.Ans} (h : perform fts input o s = some (r, s')) :
    s' = s ∨ o.Writes s s' := by
  cases o with
  | startSession key mode => cases h; exact .inr .startSession
  | nowMs => cases h; exact .inl rfl
  | maxLastRebuiltAt key => exact .inl (answer_state h).1
  | listSince key since t =>
    cases input with
    | ok =>
      cases h
      -- only a list that is not empty is noted in the history
      split
      · exact .inl rfl
      · rename_i hne
        exact .inr (.listSince fun h => hne (List.isEmpty_iff.2 h))
    | fail => cases h; exact .inl rfl
    | affected a => cases h
    | synth w => cases h
  | lookupRemaining key since t => exact .inl (answer_state h).1
  | listConcepts key => exact .inl (answer_state h).1
  | countConcepts key => exact .inl (answer_state h).1
  | wikiGet key concept => exact .inl (answer_state h).1
  | rawsGet id => exact .inl (answer_state h).1
  | searchRaws q => exact .inl (answer_state h).1
  | built i => cases h; exact .inr .built
  | prompt key p => cases h; exact .inr .prompt
  | extracted key newRaws =>
    cases input with
    | ok => cases h
    | fail => cases h; exact .inl rfl
    | affected a => cases h; exact .inr .extracted
    | synth w => cases h
  | synthesized =>
    cases input with
    | ok => cases h
    | fail => cases h; exact .inl rfl
    | affected a => cases h
    | synth w => cases h; exact .inl rfl
  | wikiUpsert key concept content refs t =>
    cases input with
    | ok => cases h; exact .inr .wikiUpsert
    | fail => cases h; exact .inl rfl
    | affected a => cases h
    | synth w => cases h

end LlmMemory
