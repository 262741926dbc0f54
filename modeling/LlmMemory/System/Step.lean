import LlmMemory.Coordinator.Worker
import LlmMemory.Lib.Runs

/-!
# The server running

The server as a transition system (`Sys.step`): any number of requests and of
rebuild workers, interleaved in any way. A step first lets time pass, and then
one of them moves.

A request goes from one query to the next (`Call.next`), each having an effect
on the rest (`Effect`). A worker claims the slot of its owner when its mode is
dispatched, is spawned, and runs; its outer task then observes how it ended,
and after that releases the slot, unless the worker did so itself (`Phase`).
-/

namespace LlmMemory

open Effects

/-! ## Requests -/

/-- The arguments of `raw_append`; the tags are given as JSON text. -/
structure AppendArgs where
  title : String
  content : String
  source : String
  tags : Option String
  deriving DecidableEq, Repr

/-- A request of a user that changes something. -/
inductive Request
  | rawAppend (a : AppendArgs)
  | schemaUpdate (content : String)
  | wikiRebuild (concept : Option String)
  | deleteMe
  deriving DecidableEq, Repr

/-- A request in flight: authenticated, or waiting for a write, with what it
    read before, or for the coordinator. -/
inductive Call
  | authenticated (userId : String) (req : Request)
  | insertRaw (userId : String) (r : Raw)
  | notifyAppend (userId : String)
  | upsertSchema (userId : String) (content : String) (now : Int)
  deriving DecidableEq, Repr

/-- What a request does to the rest. -/
inductive Effect
  | insertRaw (r : Raw)
  | tryStart (key : OwnerKey) (mode : RebuildMode)
  | upsertSchema (key : OwnerKey) (content : String) (now : Int)
  | deleteUser (userId : String)
  deriving DecidableEq, Repr

/-- The greatest number of bytes of a content. -/
def MAX_CONTENT_BYTES : ℕ := 1024 * 1024

/-- The raw that `raw_append` is to insert, if its arguments are valid. -/
def AppendArgs.toRaw (a : AppendArgs) (userId id : String) (now : Int) : Option Raw :=
  if a.title.isEmpty ∨ a.content.isEmpty then none
  else if MAX_CONTENT_BYTES < a.content.utf8ByteSize then none
  else some ⟨id, .personal, userId, a.title, a.content, a.source, a.tags, some userId, now⟩

/-- The next step of a request, `id` being a new ulid, and `ok` whether a write
    succeeds: how the request goes on, unless it has ended, and its effects. -/
def Call.next (s : Shared) (id : String) (ok : Bool) : Call → Option Call × List Effect
  | .authenticated userId (.rawAppend a) =>
    match a.toRaw userId id s.now with
    | some r => (some (.insertRaw userId r), [])
    | none => (none, [])
  | .insertRaw userId r =>
    -- `id` is the primary key
    if ok ∧ Raws.get s.db r.id = none then (some (.notifyAppend userId), [.insertRaw r])
    else (none, [])
  | .notifyAppend userId => (none, [.tryStart (.personal userId) .append])
  | .authenticated userId (.schemaUpdate content) => (some (.upsertSchema userId content s.now), [])
  | .upsertSchema userId content now =>
    (none, if ok then [.upsertSchema (.personal userId) content now] else [])
  | .authenticated userId (.wikiRebuild concept) =>
    if concept.all Concept.isValid then (none, [.tryStart (.personal userId) (.manual concept)])
    else (none, [])
  | .authenticated userId .deleteMe => (none, if ok then [.deleteUser userId] else [])

/-! ## Workers -/

/-- How the task of a worker ended. -/
inductive JoinResult
  | ok
  | err
  | panicked
  | joinError
  deriving DecidableEq, Repr

/-- How far a worker is: its mode was dispatched; it runs; it ended, which is observed by
    the outer task; it was released. -/
inductive Phase
  | claimed (mode : RebuildMode)
  | running (th : Thread RebuildSig (Except CoordinatorError Next))
  | ended (r : JoinResult)
  | observed (r : JoinResult)
  | released

/-- A worker: for whom it works, and how far it is. -/
structure Worker where
  key : OwnerKey
  phase : Phase

namespace Shared

/-- Time passes. -/
def tick (s : Shared) (dt : ℕ) : Shared := { s with now := s.now + dt }

/-- A mode was dispatched for `key`. -/
def noteDispatched (s : Shared) (key : OwnerKey) (mode : RebuildMode) : Shared :=
  { s with hist := { s.hist with
      manualStarting := Function.update s.hist.manualStarting key mode.IsManual } }

/-- A request for a rebuild, and the mode dispatched if a worker is to start. -/
def tryStart (s : Shared) (key : OwnerKey) (mode : RebuildMode) : Option RebuildMode × Shared :=
  match s.map.tryStart key mode with
  | (.started m, map) => (some m, { s with map := map }.noteDispatched key m)
  | (_, map) => (none, { s with map := map })

/-- The end of a session, and the mode to go on with, if any. -/
def markIdleOrContinue (s : Shared) (key : OwnerKey) : Option RebuildMode × Shared :=
  match s.map.markIdleOrContinue key with
  | (some m, map) => (some m, { s with map := map }.noteDispatched key m)
  | (none, map) => (none, { s with map := map })

/-- What the outer task does to the slot, once it observed how a worker ended. -/
def release (s : Shared) (key : OwnerKey) : JoinResult → Shared
  | .ok => s
  | .err => { s with map := s.map.releaseRunningPreservePending key }
  | .panicked => { s with map := s.map.forceIdle key }
  | .joinError => { s with map := s.map.forceIdle key }

end Shared

namespace Worker

/-- A worker about to run the session of a mode. -/
def start (key : OwnerKey) (l : Locals) : Phase := .running (.seq (runWorker key l))

/-- The step of a worker, and of its outer task. -/
def step (fts : Fts) (input : Input) (m : Move) (w : Worker) (s : Shared) :
    Option (Phase × Shared) :=
  match w.phase with
  | .claimed mode => some (start w.key { mode := mode }, { s with inFlight := s.inFlight + 1 })
  | .running (.seq (.ret (.ok (.again l)))) => some (start w.key l, s)
  | .running (.seq (.ret (.ok (.markIdleOrContinue consecutiveCaps remainderDrainUsed)))) =>
    match s.markIdleOrContinue w.key with
    | (some mode, s') => some (start w.key ⟨mode, consecutiveCaps, remainderDrainUsed⟩, s')
    | (none, s') => some (.ended .ok, s')
  | .running (.seq (.ret (.error _))) => some (.ended .err, s)
  | .running th =>
    (th.step synthesizeTask (perform fts input) m s).map fun x => (.running x.1, x.2)
  | .ended r => some (.observed r, { s with inFlight := s.inFlight - 1 })
  | .observed r => some (.released, s.release w.key r)
  | .released => none

/-- A worker whose task is aborted while it runs. -/
def abort (w : Worker) (r : JoinResult) : Option Worker :=
  match w.phase with
  | .running _ => some { w with phase := .ended r }
  | _ => none

end Worker

/-! ## The system -/

/-- The system: what is shared, the workers that were spawned, and the requests in flight. -/
structure Sys where
  shared : Shared
  workers : List Worker := []
  calls : List Call := []

/-- What moves: a new request comes in, the `i`-th one goes on, a raw is
    appended with nothing in between, the `i`-th worker goes on, or panics, or
    its task is cancelled. -/
inductive Event
  | request (userId : String) (req : Request)
  | call (i : ℕ) (id : String) (ok : Bool)
  | rawAppend (userId : String) (a : AppendArgs) (id : String)
  | worker (i : ℕ) (m : Move) (input : Input)
  | panic (i : ℕ)
  | cancel (i : ℕ)

/-- A step: the milliseconds that pass, and what moves then. -/
structure Step where
  dt : ℕ
  event : Event

namespace Sys

/-- Time passes. -/
def tick (s : Sys) (dt : ℕ) : Sys := { s with shared := s.shared.tick dt }

/-- What a request does. -/
def effect (s : Sys) : Effect → Sys
  | .insertRaw r => { s with shared := { s.shared with db := Raws.insert s.shared.db r } }
  | .tryStart key mode =>
    match s.shared.tryStart key mode with
    | (some m, sh) => { s with shared := sh, workers := s.workers ++ [⟨key, .claimed m⟩] }
    | (none, sh) => { s with shared := sh }
  | .upsertSchema key content now =>
    { s with shared := { s.shared with db := Schemas.upsert s.shared.db key content now } }
  | .deleteUser userId =>
    { s with shared := { s.shared with
        db := Users.deleteCascade s.shared.db userId,
        hist := { s.shared.hist with deleted := s.shared.hist.deleted ++ [userId] } } }

/-- The workers and the requests after an event, with its effects on the rest.
    A worker only panics or is cancelled while it runs. -/
def effects (s : Sys) : Event → Option (List Effect × List Call)
  | .request userId req =>
    -- the user of the token must exist
    if (Users.findById s.shared.db userId).isSome then
      some ([], s.calls ++ [.authenticated userId req])
    else none
  | .call i id ok => s.calls[i]?.map fun c =>
    match c.next s.shared id ok with
    | (some c', es) => (es, s.calls.set i c')
    | (none, es) => (es, s.calls.eraseIdx i)
  | .rawAppend userId a id =>
    if (Users.findById s.shared.db userId).isSome ∧ Raws.get s.shared.db id = none then
      (a.toRaw userId id s.shared.now).map fun r =>
        ([.insertRaw r, .tryStart (.personal userId) .append], s.calls)
    else none
  | _ => none

/-- The `i`-th worker `w` after an event, and the state it leaves. -/
def workerStep (fts : Fts) (s : Sys) : Event → Option (ℕ × Worker × Shared)
  | .worker i m input => s.workers[i]?.bind fun w =>
    (w.step fts input m s.shared).map fun (p, sh) => (i, { w with phase := p }, sh)
  | .panic i => s.workers[i]?.bind fun w => (w.abort .panicked).map (i, ·, s.shared)
  | .cancel i => s.workers[i]?.bind fun w => (w.abort .joinError).map (i, ·, s.shared)
  | _ => none

/-- The `i`-th worker replaced by `w`, leaving the state `sh`. -/
def setWorker (s : Sys) (i : ℕ) (w : Worker) (sh : Shared) : Sys :=
  { s with shared := sh, workers := s.workers.set i w }

/-- A step of the system. -/
def step (fts : Fts) (s : Sys) (l : Step) : Option Sys :=
  let s := s.tick l.dt
  match s.effects l.event with
  | some (es, calls) => some (es.foldl effect { s with calls := calls })
  | none => (s.workerStep fts l.event).map fun (i, w, sh) => s.setWorker i w sh

end Sys

theorem Sys.effect_tryStart_shared {s : Sys} {key : OwnerKey} {mode : RebuildMode} :
    (s.effect (.tryStart key mode)).shared = (s.shared.tryStart key mode).2 := by
  simp only [Sys.effect]
  split <;> rename_i h <;> rw [h]

/-- The server just started: nothing runs, and nothing is recorded. What was
    extracted, listed and written before is part of the history. -/
structure Boot (s : Sys) : Prop where
  map : s.shared.map = fun _ => none
  inFlight : s.shared.inFlight = 0
  manualStarting : s.shared.hist.manualStarting = fun _ => false
  workers : s.workers = []
  calls : s.calls = []

/-- The server just started at the time `now`, for a single user. -/
def Sys.fresh (userId : String) (now : Int) : Sys where
  shared := {
    now := now
    db := ⟨[⟨userId, "google", "subject", none, now⟩], [], [], [], [], []⟩ }

/-- A system with one user is one that starts. -/
theorem Sys.fresh_boot (userId : String) (now : Int) : Boot (Sys.fresh userId now) :=
  ⟨rfl, rfl, rfl, rfl, rfl⟩

/-- A run where the user `u` appends a raw, and a page is made of it: from when
    the worker is spawned to when the page is written. -/
def firstRebuild : List Step :=
  [.rawAppend "u" ⟨"title", "content", "manual", none⟩ "r1", .worker 0 .main .ok,
    .worker 0 .main .ok, .worker 0 .main .ok, .worker 0 .main .ok, .worker 0 .main .ok,
    .worker 0 .main .ok, .worker 0 .main (.affected ⟨["ghost"], ["alpha", "Alpha"]⟩),
    .worker 0 .main .ok, .worker 0 .main .ok, .worker 0 .start .ok, .worker 0 (.task 0) .ok,
    .worker 0 (.task 0) .ok, .worker 0 (.task 0) .ok, .worker 0 (.task 0) .ok,
    .worker 0 (.task 0) (.synth ⟨"page", ["r1", "r2"]⟩), .worker 0 (.task 0) .ok].map fun e => ⟨1, e⟩

/-! ## Dispatching -/

namespace Shared

variable {s s' : Shared} {key : OwnerKey} {mode m : RebuildMode}

/-- A request that starts no worker is recorded, the slot being held. -/
theorem tryStart_none (h : s.tryStart key mode = (none, s')) :
    ∃ e', s' = { s with map := Function.update s.map key (some e') } ∧
      (s.map.entry key).running = true ∧
      ((mode = .append ∧ e' = { s.map.entry key with appendMissed := true }) ∨
       (mode.IsManual ∧ e' = { s.map.entry key with
          manualPending := some (mergePending (s.map.entry key).manualPending mode) })) := by
  obtain ⟨o, e', hs⟩ : ∃ o e', (s.map.entry key).tryStart mode = (o, e') := ⟨_, _, rfl⟩
  simp only [tryStart, StateMap.tryStart, hs] at h
  rcases RebuildState.tryStart_cases hs with ⟨hr, hm, rfl, he⟩ | ⟨hr, hm, rfl, he⟩ |
    ⟨_, _, _, rfl, _⟩ | ⟨_, _, rfl, _⟩
  · cases h
    exact ⟨e', rfl, hr, .inl ⟨hm, he⟩⟩
  · cases h
    exact ⟨e', rfl, hr, .inr ⟨hm, he⟩⟩
  · cases h
  · cases h

/-- A request that starts a worker claims the slot: for a missed append, the
    request being recorded, or for itself. -/
theorem tryStart_some (h : s.tryStart key mode = (some m, s')) :
    ∃ e', s' = { s with map := Function.update s.map key (some e') }.noteDispatched key m ∧
      (s.map.entry key).running = false ∧
      ((mode.IsManual ∧ (s.map.entry key).appendMissed = true ∧ m = .append ∧
        e' = ⟨true, some (mergePending (s.map.entry key).manualPending mode), false⟩) ∨
       ((mode.IsManual → (s.map.entry key).appendMissed = false) ∧ m = mode ∧
        e' = ⟨true, (s.map.entry key).manualPending, false⟩)) := by
  obtain ⟨o, e', hs⟩ : ∃ o e', (s.map.entry key).tryStart mode = (o, e') := ⟨_, _, rfl⟩
  simp only [tryStart, StateMap.tryStart, hs] at h
  rcases RebuildState.tryStart_cases hs with ⟨_, _, rfl, _⟩ | ⟨_, _, rfl, _⟩ |
    ⟨hr, hm, hmiss, rfl, he⟩ | ⟨hr, hm, rfl, he⟩
  · cases h
  · cases h
  · cases h
    exact ⟨e', rfl, hr, .inl ⟨hm, hmiss, rfl, he⟩⟩
  · cases h
    exact ⟨e', rfl, hr, .inr ⟨hm, rfl, he⟩⟩

/-- A session is followed by a missed append, or else by what is pending. -/
theorem markIdleOrContinue_some (h : s.markIdleOrContinue key = (some m, s')) :
    ∃ e', s' = { s with map := Function.update s.map key (some e') }.noteDispatched key m ∧
      (((s.map.entry key).appendMissed = true ∧ m = .append ∧
        e' = { s.map.entry key with appendMissed := false }) ∨
       ((s.map.entry key).appendMissed = false ∧ (s.map.entry key).manualPending = some m ∧
        e' = { s.map.entry key with manualPending := none })) := by
  obtain ⟨c, e', hs⟩ : ∃ c e', (s.map.entry key).markIdleOrContinue = (c, e') := ⟨_, _, rfl⟩
  simp only [markIdleOrContinue, StateMap.markIdleOrContinue, hs] at h
  rcases RebuildState.markIdleOrContinue_cases hs with ⟨hm, rfl, he⟩ | ⟨hm, ⟨m', hp, rfl⟩, he⟩ |
    ⟨_, _, rfl, _⟩
  · cases h
    exact ⟨e', rfl, .inl ⟨hm, rfl, he⟩⟩
  · cases h
    exact ⟨e', rfl, .inr ⟨hm, hp, he⟩⟩
  · cases h

/-- A session after which nothing is recorded releases the slot. -/
theorem markIdleOrContinue_none (h : s.markIdleOrContinue key = (none, s')) :
    (s.map.entry key).appendMissed = false ∧ (s.map.entry key).manualPending = none ∧
      s' = { s with
        map := Function.update s.map key (some { s.map.entry key with running := false }) } := by
  obtain ⟨c, e', hs⟩ : ∃ c e', (s.map.entry key).markIdleOrContinue = (c, e') := ⟨_, _, rfl⟩
  simp only [markIdleOrContinue, StateMap.markIdleOrContinue, hs] at h
  rcases RebuildState.markIdleOrContinue_cases hs with ⟨_, rfl, _⟩ | ⟨_, ⟨m', _, rfl⟩, _⟩ |
    ⟨hm, hp, rfl, he⟩
  · cases h
  · cases h
  · cases h
    exact ⟨hm, hp, he ▸ rfl⟩

end Shared

/-! ## What a step can be -/

/-- The worker that an event moves. -/
def Event.worker? : Event → Option ℕ
  | .worker i _ _ => some i
  | .panic i => some i
  | .cancel i => some i
  | _ => none

/-- The ways a worker `w` moves, to the phase `p` and leaving the state `s'`. -/
inductive Worker.Moves (fts : Fts) (e : Event) (w : Worker) (s : Shared) : Phase → Shared → Prop
  | spawn {mode : RebuildMode} : w.phase = .claimed mode →
      Moves fts e w s (start w.key { mode := mode }) { s with inFlight := s.inFlight + 1 }
  | thread {th th' : Thread RebuildSig (Except CoordinatorError Next)} {m : Move} {input : Input}
      {s' : Shared} : w.phase = .running th → (∃ i, e = .worker i m input) →
      th.step synthesizeTask (perform fts input) m s = some (th', s') →
      Moves fts e w s (.running th') s'
  | again {l : Locals} : w.phase = .running (.seq (.ret (.ok (.again l)))) →
      Moves fts e w s (start w.key l) s
  | proceed {caps : ℕ} {used : Bool} {mode : RebuildMode} {s' : Shared} :
      w.phase = .running (.seq (.ret (.ok (.markIdleOrContinue caps used)))) →
      s.markIdleOrContinue w.key = (some mode, s') →
      Moves fts e w s (start w.key ⟨mode, caps, used⟩) s'
  | idle {caps : ℕ} {used : Bool} {s' : Shared} :
      w.phase = .running (.seq (.ret (.ok (.markIdleOrContinue caps used)))) →
      s.markIdleOrContinue w.key = (none, s') → Moves fts e w s (.ended .ok) s'
  | err {x : CoordinatorError} : w.phase = .running (.seq (.ret (.error x))) →
      Moves fts e w s (.ended .err) s
  | abort {th : Thread RebuildSig (Except CoordinatorError Next)} {r : JoinResult} :
      w.phase = .running th → r ≠ .ok → (∃ i, e = .panic i ∨ e = .cancel i) →
      Moves fts e w s (.ended r) s
  | observe {r : JoinResult} : w.phase = .ended r →
      Moves fts e w s (.observed r) { s with inFlight := s.inFlight - 1 }
  | release {r : JoinResult} : w.phase = .observed r → Moves fts e w s .released (s.release w.key r)

variable {fts : Fts}

/-- A step of a worker is one of its moves. -/
theorem Worker.step_moves {input : Input} {m : Move} {w : Worker} {s s' : Shared} {p : Phase}
    {e : Event} (he : ∃ i, e = .worker i m input) (h : w.step fts input m s = some (p, s')) :
    w.Moves fts e s p s' := by
  unfold Worker.step at h
  split at h
  case h_1 hp => cases h; exact .spawn hp
  case h_2 hp => cases h; exact .again hp
  case h_3 hp =>
    split at h
    · rename_i hm
      cases h
      exact .proceed hp hm
    · rename_i hm
      cases h
      exact .idle hp hm
  case h_4 hp => cases h; exact .err hp
  case h_5 hp =>
    obtain ⟨x, hx, hx'⟩ := Option.map_eq_some_iff.1 h
    cases hx'
    exact .thread hp he hx
  case h_6 hp => cases h; exact .observe hp
  case h_7 hp => cases h; exact .release hp
  case h_8 => cases h

/-- A worker that panics or is cancelled moves as well. -/
theorem Worker.abort_moves {w w' : Worker} {r : JoinResult} {s : Shared} {e : Event}
    (h : w.abort r = some w') (hr : r ≠ .ok) (he : ∃ i, e = .panic i ∨ e = .cancel i) :
    ∃ p, w' = { w with phase := p } ∧ w.Moves fts e s p s := by
  unfold Worker.abort at h
  split at h
  · rename_i hp
    cases h
    exact ⟨_, rfl, .abort hp hr he⟩
  · cases h

/-- A step has the effects of its event, or moves a worker, after time has
    passed. -/
theorem Sys.step_cases {s s' : Sys} {l : Step} (h : s.step fts l = some s') :
    (∃ es calls, (s.tick l.dt).effects l.event = some (es, calls) ∧
      s' = es.foldl effect { s.tick l.dt with calls := calls }) ∨
    ∃ i w p sh, l.event.worker? = some i ∧ s.workers[i]? = some w ∧
      w.Moves fts l.event (s.shared.tick l.dt) p sh ∧
      s' = (s.tick l.dt).setWorker i { w with phase := p } sh := by
  simp only [Sys.step] at h
  split at h
  · rename_i es calls he
    cases h
    exact .inl ⟨es, calls, he, rfl⟩
  · obtain ⟨⟨i, w', sh⟩, hw, rfl⟩ := Option.map_eq_some_iff.1 h
    refine .inr ?_
    cases he : l.event with
    | worker i m input =>
      simp only [workerStep, he] at hw
      obtain ⟨w, hi, hw⟩ := Option.bind_eq_some_iff.1 hw
      obtain ⟨⟨p, sh⟩, hs, hx⟩ := Option.map_eq_some_iff.1 hw
      cases hx
      exact ⟨_, w, p, sh, rfl, hi, Worker.step_moves ⟨_, rfl⟩ hs, rfl⟩
    -- it ends with the thread, whatever the worker was doing
    | panic i =>
      simp only [workerStep, he] at hw
      obtain ⟨w, hi, hw⟩ := Option.bind_eq_some_iff.1 hw
      obtain ⟨_, hs, hx⟩ := Option.map_eq_some_iff.1 hw
      cases hx
      obtain ⟨p, rfl, hm⟩ := Worker.abort_moves hs (by decide) ⟨_, .inl rfl⟩
      exact ⟨_, w, p, _, rfl, hi, hm, rfl⟩
    | cancel i =>
      simp only [workerStep, he] at hw
      obtain ⟨w, hi, hw⟩ := Option.bind_eq_some_iff.1 hw
      obtain ⟨_, hs, hx⟩ := Option.map_eq_some_iff.1 hw
      cases hx
      obtain ⟨p, rfl, hm⟩ := Worker.abort_moves hs (by decide) ⟨_, .inr rfl⟩
      exact ⟨_, w, p, _, rfl, hi, hm, rfl⟩
    | request u r => simp [workerStep, he] at hw
    | call i id ok => simp [workerStep, he] at hw
    | rawAppend u a id => simp [workerStep, he] at hw

/-- When the code of a request lets it have an effect. -/
def Sys.Allows (s : Sys) : Effect → Prop
  | .insertRaw r => Raws.get s.shared.db r.id = none
  | .tryStart key mode => (∃ u, key = .personal u) ∧ ∀ c, mode = .manual (some c) → Concept.isValid c
  | .upsertSchema key _ _ => ∃ u, key = .personal u
  | .deleteUser _ => True

/-- The step `l` has the effect `e`. -/
def Sys.Does (s : Sys) (l : Step) (e : Effect) : Prop :=
  ∃ x ∈ (s.tick l.dt).effects l.event, e ∈ x.1

instance {s : Sys} {l : Step} {e : Effect} : Decidable (s.Does l e) :=
  inferInstanceAs (Decidable (∃ x ∈ (s.tick l.dt).effects l.event, e ∈ x.1))

/-- All effects of the step `l` satisfy `P`. -/
def Sys.Each (s : Sys) (l : Step) (P : Effect → Bool) : Prop :=
  ∀ x ∈ (s.tick l.dt).effects l.event, ∀ e ∈ x.1, P e = true

instance {s : Sys} {l : Step} {P : Effect → Bool} : Decidable (s.Each l P) :=
  inferInstanceAs (Decidable (∀ x ∈ (s.tick l.dt).effects l.event, ∀ e ∈ x.1, P e = true))

/-- All effects of a step are as one says. -/
theorem Sys.Each.does {s : Sys} {l : Step} {P : Effect → Bool} {e : Effect} (h : s.Each l P)
    (he : s.Does l e) : P e = true :=
  let ⟨x, hx, hm⟩ := he
  h x hx e hm

/-- The raw of a request has the id drawn, the owner, and the time. -/
theorem AppendArgs.toRaw_eq {a : AppendArgs} {u id : String} {now : Int} {r : Raw}
    (h : a.toRaw u id now = some r) : r.id = id ∧ r.key = .personal u ∧ r.createdAt = now := by
  unfold AppendArgs.toRaw at h
  split at h
  · cases h
  · split at h
    · cases h
    · cases h; exact ⟨rfl, rfl, rfl⟩

/-- The effects of an event: none, a single one, or those of an append with
    nothing in between. -/
theorem Sys.effects_cases {s : Sys} {e : Event} {es : List Effect} {calls : List Call}
    (h : s.effects e = some (es, calls)) :
    es = [] ∨ (∃ x, es = [x] ∧ s.Allows x ∧ ∃ i id ok, e = .call i id ok) ∨
    ∃ u a id r, e = .rawAppend u a id ∧ a.toRaw u id s.shared.now = some r ∧
      Raws.get s.shared.db r.id = none ∧ es = [.insertRaw r, .tryStart (.personal u) .append] := by
  cases e with
  | request u req =>
    simp only [Sys.effects] at h
    split at h
    · cases h; exact .inl rfl
    · cases h
  | call i id ok =>
    obtain ⟨c, _, hc⟩ := Option.map_eq_some_iff.1 h
    have hes : es = (c.next s.shared id ok).2 := by
      split at hc <;> rename_i hn <;> cases hc <;> rw [hn]
    have hcall : ∃ i' id' ok', Event.call i id ok = .call i' id' ok' := ⟨_, _, _, rfl⟩
    rw [hes]
    -- the call goes on by what it still has to do, and only the last step has an effect
    cases c with
    | authenticated u req =>
      cases req with
      | rawAppend a => simp only [Call.next]; split <;> exact .inl rfl
      | schemaUpdate content => exact .inl rfl
      | wikiRebuild concept =>
        simp only [Call.next]
        split
        · rename_i hv
          exact .inr (.inl ⟨_, rfl, ⟨⟨u, rfl⟩, fun c hc => by cases hc; exact hv⟩, hcall⟩)
        · exact .inl rfl
      | deleteMe =>
        cases ok with
        | true => exact .inr (.inl ⟨_, rfl, trivial, hcall⟩)
        | false => exact .inl rfl
    | insertRaw u r =>
      simp only [Call.next]
      split
      · rename_i hr
        exact .inr (.inl ⟨_, rfl, hr.2, hcall⟩)
      · exact .inl rfl
    | notifyAppend u => exact .inr (.inl ⟨_, rfl, ⟨⟨u, rfl⟩, fun _ h => by cases h⟩, hcall⟩)
    | upsertSchema u content now =>
      cases ok with
      | true => exact .inr (.inl ⟨_, rfl, ⟨u, rfl⟩, hcall⟩)
      | false => exact .inl rfl
  -- no step of another comes between the two
  | rawAppend u a id =>
    simp only [Sys.effects] at h
    split at h
    · rename_i hu
      obtain ⟨r, hr, he⟩ := Option.map_eq_some_iff.1 h
      cases he
      exact .inr (.inr ⟨u, a, id, r, rfl, hr, (AppendArgs.toRaw_eq hr).1 ▸ hu.2, rfl⟩)
    · cases h
  | worker i m input => cases h
  | panic i => cases h
  | cancel i => cases h

/-- What the effects allowed keep, the effects of an event keep. -/
theorem Sys.effects_induction {s : Sys} {e : Event} {es : List Effect} {calls : List Call}
    {P : Sys → Prop} (h : s.effects e = some (es, calls)) (h₀ : P { s with calls := calls })
    (hstep : ∀ s' x, x ∈ es → P s' → s'.Allows x → P (s'.effect x)) :
    P (es.foldl effect { s with calls := calls }) := by
  rcases Sys.effects_cases h with rfl | ⟨x, rfl, hx, _⟩ | ⟨u, a, id, r, _, _, hr, rfl⟩
  · exact h₀
  · exact hstep _ x (List.mem_singleton_self x) h₀ (by cases x <;> exact hx)
  · exact hstep _ _ (.tail _ (.head _)) (hstep _ _ (.head _) h₀ hr)
      ⟨⟨u, rfl⟩, fun _ h => by cases h⟩

end LlmMemory
