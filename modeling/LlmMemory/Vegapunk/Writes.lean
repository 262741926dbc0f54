import LlmMemory.Lib.Records
import LlmMemory.Vegapunk.Exchanges
import LlmMemory.Vegapunk.Ownership
import LlmMemory.Vegapunk.Paging

/-!
# Writes to the graph server

The requests `Ingest`, `IngestRaw` and `Feedback` write to the graph server
(`Op.writes`). In any run, a call of a tool writes at most once, and its reply tells
whether it did (`Delivered`): the reply is no error if and only if the write was
accepted. So a call that ended with an error may be made again, and no call that
succeeded was done in part.

Before its write a call may only end with an error (`Asks`); after a write that was
accepted it goes to its end, whatever else fails (`Quietly`).
-/

namespace LlmMemory.Vegapunk

open Effects Runs Serving

/-! ## Replies -/

/-- The flag of a result of a tool. -/
def isError : Json → Bool
  | .obj fields => match fields.lookup "isError" with
    | some (.bool b) => b
    | _ => false
  | _ => false

/-- The reply tells of an error. -/
def Reply.isError : Reply → Bool
  | .content v => Vegapunk.isError v
  | .rpcError _ _ => true
  | .flag _ => false

/-- The reply to a call, if there is one. -/
def told : Except Exit Reply → Option Reply
  | .ok r => some r
  | .error (.reply r) => some r
  | .error .panic => none

/-- A call that ends so has failed. -/
def Exit.failed : Exit → Bool
  | .reply r => r.isError
  | .panic => true

/-- A field of an object is looked up. -/
theorem lookup_object {fields : List (String × Json)} {name : String} {v : Json}
    (hnodup : (fields.map Prod.fst).Nodup) (hmem : (name, v) ∈ fields) :
    ∃ l, Json.object fields = .obj l ∧ l.lookup name = some v := by
  refine ⟨_, rfl, List.lookup_eq_some_iff.2 ?_⟩
  have hperm := List.perm_insertionSort (fun f f' : String × Json => f.1 ≤ f'.1) fields
  obtain ⟨l₁, l₂, hl⟩ := List.append_of_mem (hperm.mem_iff.2 hmem)
  refine ⟨l₁, l₂, hl, fun p hp => ?_⟩
  have hkeys := (hperm.map Prod.fst).nodup_iff.2 hnodup
  rw [hl, List.map_append, List.map_cons] at hkeys
  have hne := (List.nodup_append.1 hkeys).2.2 p.1 (List.mem_map_of_mem hp) name List.mem_cons_self
  rwa [bne_iff_ne, ne_comm]

/-- The flag of an object is its field. -/
theorem isError_object {fields : List (String × Json)} {b : Bool}
    (hnodup : (fields.map Prod.fst).Nodup) (hmem : ("isError", .bool b) ∈ fields) :
    isError (.object fields) = b := by
  obtain ⟨l, hl, hb⟩ := lookup_object hnodup hmem
  rw [hl, isError, hb]

@[simp] theorem isError_successContent {v : Json} : isError (successContent v) = false :=
  isError_object (by simp) (by simp)

@[simp] theorem isError_errorContent {body : String} : isError (errorContent body) = true :=
  isError_object (by simp) (by simp)

/-! ## Writes -/

/-- The operation asks the graph server to change what it holds. -/
def Op.writes : Op → Bool
  | .ingest _ | .ingestRaw _ | .feedback _ => true
  | _ => false

/-- The operation asks the language model. -/
def Op.asksLlm : Op → Bool
  | .gemini _ | .geminiWithin _ _ => true
  | _ => false

/-- The operation is neither of these. -/
def Op.quiet (o : Op) : Bool := !o.writes && !o.asksLlm

/-- A quiet operation neither writes nor asks the language model. -/
theorem Op.quiet_iff {o : Op} : o.quiet = true ↔ o.writes = false ∧ o.asksLlm = false := by
  rw [quiet, Bool.and_eq_true, Bool.not_eq_true', Bool.not_eq_true']

/-- The graph server did a write. -/
def Op.accepts : (o : Op) → o.Ans → Bool
  | .ingest _, .ok _ => true
  | .ingestRaw _, .ok _ => true
  | .feedback _, .ok _ => true
  | _, _ => false

theorem Op.writes_of_accepts {o : Op} {r : o.Ans} (h : o.accepts r = true) : o.writes = true := by
  cases o <;> first | rfl | cases h

/-- Nothing was written so far. -/
def Unwritten (h : History) : Prop := ∀ e ∈ h, e.1.writes = false

/-- A write was accepted. -/
def Accepted (h : History) : Prop := ∃ e ∈ h, e.1.accepts e.2 = true

/-- Where nothing is written, nothing is accepted. -/
theorem Unwritten.not_accepted {h : History} (hh : Unwritten h) : ¬Accepted h := by
  rintro ⟨e, he, hacc⟩
  have hwrites := Op.writes_of_accepts hacc
  rw [hh e he] at hwrites
  cases hwrites

theorem Unwritten.snoc {h : History} (hh : Unwritten h) {o : Op} {r : o.Ans}
    (ho : o.writes = false) : Unwritten (h ++ [⟨o, r⟩]) := by
  intro e he
  rcases List.mem_append.1 he with he | he
  · exact hh e he
  · rw [List.mem_singleton.1 he]
    exact ho

/-- A write is the first one. -/
def WritesOnce (h : History) (o : Op) : Prop := o.writes = true → Unwritten h

/-! ## Parts that do not write -/

/-- The part does not write, and if it ends the call, the call has failed. -/
abbrev Asks {α : Type} (p : Tool α) : Prop :=
  Prog.Does (fun o : Op => o.writes = false) (fun x => ∀ e, x = .error e → e.failed = true) p

/-- The part is quiet, and never ends the call. -/
abbrev Quietly {α : Type} (p : Tool α) : Prop :=
  Prog.Does (fun o : Op => o.quiet = true) (fun x => ∃ a, x = .ok a) p

section Parts

variable {α β : Type} {p : Tool α} {f : α → Tool β}

theorem Quietly.pure {a : α} : Quietly (Pure.pure a : Tool α) := ⟨a, rfl⟩

theorem Quietly.perf {o : Op} (ho : o.quiet = true) : Quietly (perf o) := ⟨ho, fun r => ⟨r, rfl⟩⟩

/-- One quiet part after the other. -/
theorem Quietly.bind (hp : Quietly p) (hf : ∀ a, Quietly (f a)) : Quietly (p >>= f) := by
  refine Prog.Does.bind hp fun x hx => ?_
  obtain ⟨a, rfl⟩ := hx
  exact hf a

/-- What follows a part that never ends the call. -/
theorem Quietly.then {Q : β → Prop} (hp : Quietly p)
    (hf : ∀ a, Does (fun o : Op => o.quiet = true) Q (f a)) :
    Does (fun o : Op => o.quiet = true) Q (p >>= f) :=
  Does.bind (Prog.Does.mono hp fun _ _ _ _ => trivial) fun a _ => hf a

theorem Quietly.ite {c : Prop} [Decidable c] {p q : Tool α} (hp : Quietly p) (hq : Quietly q) :
    Quietly (if c then p else q) := by
  split
  · exact hp
  · exact hq

theorem Quietly.asks (hp : Quietly p) : Asks p := by
  refine Prog.Does.mono (Prog.Does.imp (fun o ho => (Op.quiet_iff.1 ho).1) hp) fun x hx e he => ?_
  obtain ⟨a, rfl⟩ := hx
  cases he

/-- An operation that does not write. -/
theorem Asks.perf {o : Op} (ho : o.writes = false) : Asks (perf o) :=
  ⟨ho, fun r e he => by cases he⟩

theorem Asks.ite {c : Prop} [Decidable c] {p q : Tool α} (hp : Asks p) (hq : Asks q) :
    Asks (if c then p else q) := by
  split
  · exact hp
  · exact hq

theorem Asks.bind (hp : Asks p) (hf : ∀ a, Asks (f a)) : Asks (p >>= f) := by
  refine Prog.Does.bind hp fun x hx => ?_
  cases x with
  | ok a => exact hf a
  | error e =>
    rintro e' he
    cases he
    exact hx e rfl

theorem Asks.answer {body : String} : Asks (answer (errorContent body) : Tool α) := by
  rintro e he
  cases he
  exact isError_errorContent

/-- A request is built, or the call ends with an error. -/
theorem Asks.built {method : String} {x : Except String α} : Asks (built method x) := by
  cases x with
  | ok a => exact Quietly.pure.asks
  | error e => exact .answer

/-- A result is given, or the call ends with an error. -/
theorem Asks.orStatus {method : String} {x : Except Status α} : Asks (orStatus method x) := by
  cases x with
  | ok a => exact Quietly.pure.asks
  | error s => exact .answer

end Parts

/-! ### After a write -/

section Quietly

variable {kind : OwnershipKind} {foreignId userId : String} {user : AuthenticatedUser}

theorem verify_quietly : Quietly (verify kind foreignId userId) := by
  refine Quietly.bind (.perf rfl) fun x => ?_
  cases x <;> exact .pure

theorem record_quietly : Quietly (record kind foreignId userId) := by
  refine Quietly.bind (.perf rfl) fun now => Quietly.bind (.perf rfl) fun x => ?_
  match x with
  | .ok true => exact .pure
  | .ok false => exact verify_quietly
  | .error e => exact .pure

theorem verifyAll_quietly {ids : List String} : Quietly (verifyAll kind userId ids) := by
  induction ids with
  | nil => exact .pure
  | cons id ids ih =>
    refine Quietly.bind verify_quietly fun x => ?_
    match x with
    | .ok true => exact ih
    | .ok false => exact .pure
    | .error e => exact .pure

theorem recordMany_quietly {foreignIds : List String} :
    Quietly (recordMany kind foreignIds userId) := by
  refine Quietly.ite .pure (Quietly.bind (.perf rfl) fun now => Quietly.bind (.perf rfl) fun x => ?_)
  cases x with
  | ok u => exact verifyAll_quietly
  | error e => exact .pure

theorem sleepUntil_quietly {deadline : Int} : Quietly (sleepUntil deadline) :=
  Quietly.bind (.perf rfl) fun _ => Quietly.ite .pure (.perf rfl)

theorem pollChunks_quietly {deadline : Int} {chunks : List (List String)} :
    Quietly (pollChunks deadline chunks) := by
  induction chunks with
  | nil => exact .pure
  | cons chunk chunks ih =>
    refine Quietly.bind (.perf rfl) fun now => Quietly.ite .pure ?_
    exact Quietly.bind (.perf rfl) fun reply => Quietly.bind ih fun more => .pure

theorem awaitRounds_quietly {deadline : Int} {rounds : ℕ} {pending : List String}
    {sawNonOk : Bool} : Quietly (awaitRounds deadline rounds pending sawNonOk) := by
  induction rounds generalizing pending sawNonOk with
  | zero => exact .pure
  | succ rounds ih =>
    refine Quietly.ite .pure (Quietly.bind (.perf rfl) fun now => Quietly.ite .pure ?_)
    refine Quietly.bind pollChunks_quietly fun results => Quietly.ite .pure ?_
    exact Quietly.bind sleepUntil_quietly fun _ => ih

theorem awaitMsgIdsComplete_quietly {msgIds : List String} :
    Quietly (awaitMsgIdsComplete msgIds) := by
  rw [awaitMsgIdsComplete]
  exact Quietly.ite .pure (Quietly.bind (.perf rfl) fun _ => awaitRounds_quietly)

theorem listPages_quietly {sinceMs timeoutMs offset : Int} {pages : ℕ} {cap : Option Int}
    {byId : List JobInfo} : Quietly (listPages sinceMs timeoutMs pages offset cap byId) := by
  induction pages generalizing offset cap byId with
  | zero => exact .pure
  | succ pages ih =>
    rw [listPages_succ]
    refine Quietly.bind (.perf rfl) fun (x : ListJobsReply) => ?_
    cases x with
    | roundTimedOut => exact .pure
    | rpcTimedOut => exact .pure
    | reply r =>
      cases r with
      | error s => exact .pure
      | ok inner =>
        rw [afterPage]
        -- the size of a page does not matter
        generalize LIST_JOBS_PAGE_SIZE = size
        exact Quietly.ite .pure ih

theorem awaitExtraction_quietly {schemaPrefix : String} {sinceMs deadline expectedCount : Int}
    {rounds : ℕ} {baseline : Option (Int × Int)} :
    Quietly (awaitExtraction schemaPrefix sinceMs deadline expectedCount rounds baseline) := by
  induction rounds generalizing baseline with
  | zero => exact .pure
  | succ rounds ih =>
    refine Quietly.bind (.perf rfl) fun now => Quietly.ite .pure ?_
    refine Quietly.bind (by rw [listExtractionJobsPaged]; exact listPages_quietly) fun x => ?_
    match x with
    | none => exact .pure
    | some (.error _) => exact Quietly.bind sleepUntil_quietly fun _ => ih
    | some (.ok jobs) =>
      exact Quietly.ite .pure (Quietly.bind sleepUntil_quietly fun _ => ih)

theorem awaitExtractionJobsForSchema_quietly {userSchema : String}
    {sinceMs expectedCount : Int} :
    Quietly (awaitExtractionJobsForSchema userSchema sinceMs expectedCount) := by
  rw [awaitExtractionJobsForSchema]
  exact Quietly.ite .pure (Quietly.bind (.perf rfl) fun _ => awaitExtraction_quietly)

end Quietly

/-! ### Before a write -/

section Asks

variable {cfg : Config} {user : AuthenticatedUser} {names : List String} {text : String}

theorem acquire_quietly {schema : String} : Quietly (acquireIngestSerializer schema) :=
  Quietly.bind (.perf rfl) fun _ => .perf rfl

theorem fetchEntityNames_quietly {schema nodeType : String} :
    Quietly (fetchEntityNames schema nodeType) := by
  refine Quietly.bind (.perf rfl) fun x => ?_
  cases x <;> exact .pure

theorem collectDedupCatalogue_quietly {U : Unicode} {sharedSchema userSchema : String} :
    Quietly (collectDedupCatalogue U sharedSchema userSchema) := by
  have hcollect : ∀ types catalogue,
      Quietly (collectEntities U sharedSchema userSchema types catalogue) := by
    intro types
    induction types with
    | nil => exact fun _ => .pure
    | cons nodeType types ih =>
      intro catalogue
      exact Quietly.bind fetchEntityNames_quietly fun _ =>
        Quietly.bind fetchEntityNames_quietly fun _ => ih _
  exact hcollect _ _

theorem scanMessage_asks {U : Unicode} {method : String} {catalogue : DedupCatalogue} :
    Asks (scanMessage U method catalogue text) := by
  refine Asks.bind (fun e he => ?_) fun x => ?_
  · split at he <;> cases he
    rfl
  · match x with
    | .blockedByShared hit => exact .answer
    | .rewritten newText _ => exact Quietly.pure.asks
    | .proceed => exact Quietly.pure.asks

theorem applyLlmCanonicalizeWithin_asks {timeoutMs : Int} :
    Asks (applyLlmCanonicalizeWithin timeoutMs names text) := by
  rw [applyLlmCanonicalizeWithin]
  split
  · exact Quietly.pure.asks
  · exact Asks.bind (.perf rfl) fun _ => Quietly.pure.asks

theorem canonicalizeBefore_asks {enabled exhausted : Bool} {deadline : Int} :
    Asks (canonicalizeBefore names enabled deadline exhausted text) := by
  refine Asks.ite (Asks.bind (.perf rfl) fun now => Asks.ite Quietly.pure.asks ?_)
    Quietly.pure.asks
  refine Asks.bind applyLlmCanonicalizeWithin_asks fun x => ?_
  cases x <;> exact Quietly.pure.asks

theorem rewriteMessages_asks {catalogue : DedupCatalogue} {enabled exhausted : Bool}
    {deadline : Int} {i : ℕ} {msgs : List IngestMessage} :
    Asks (rewriteMessages cfg catalogue names enabled deadline i exhausted msgs) := by
  induction msgs generalizing i exhausted with
  | nil => exact Quietly.pure.asks
  | cons msg msgs ih =>
    exact Asks.bind scanMessage_asks fun _ => Asks.bind canonicalizeBefore_asks fun _ =>
      Asks.bind ih fun _ => Quietly.pure.asks

theorem canonicalizeIf_asks {enabled : Bool} : Asks (canonicalizeIf enabled names text) := by
  refine Asks.ite ?_ Quietly.pure.asks
  rw [applyLlmCanonicalize]
  split
  · exact Quietly.pure.asks
  · exact Asks.bind (.perf rfl) fun _ => Quietly.pure.asks

theorem checkOwner_asks {tool : String} {kind : OwnershipKind} {foreignId : String} :
    Asks (checkOwner user tool kind foreignId) := by
  refine Asks.bind verify_quietly.asks fun x => ?_
  match x with
  | .ok true => exact Quietly.pure.asks
  | .ok false => exact .answer
  | .error e => exact .answer

end Asks

/-! ## Calls that write -/

/-- How the call of a tool that writes ends: well, with its write accepted, or else
    with an error. -/
def Outcome (h : History) : Except Exit Json → Prop
  | .ok v => isError v = false ∧ Accepted h
  | .error e => e.failed = true ∧ ¬Accepted h

/-- After the history, the call writes at most once, and ends with the outcome of it. -/
abbrev Ends (h : History) (p : Tool Json) : Prop := Prog.Logs WritesOnce Outcome h p

/-- The part does not write, and the call ends well. -/
abbrev Concludes (p : Tool Json) : Prop :=
  Prog.Does (fun o : Op => o.writes = false) (fun x => ∃ v, x = .ok v ∧ isError v = false) p

section Calls

variable {α : Type} {h : History} {f : α → Tool Json} {cfg : Config} {user : AuthenticatedUser}
  {args : Json}

theorem Concludes.success {v : Json} : Concludes (pure (successContent v)) :=
  ⟨_, rfl, isError_successContent⟩

/-- A quiet part, and then the answer. -/
theorem Quietly.concludes {p : Tool α} (hp : Quietly p) (hf : ∀ a, Concludes (f a)) :
    Concludes (p >>= f) := by
  refine Prog.Does.bind (Prog.Does.imp (fun o ho => (Op.quiet_iff.1 ho).1) hp) fun x hx => ?_
  obtain ⟨a, rfl⟩ := hx
  exact hf a

/-- Before the write the call may only end with an error. -/
theorem asks_then {p : Tool α} (hp : Asks p) (hh : Unwritten h)
    (hf : ∀ a h', Unwritten h' → Ends h' (f a)) : Ends h (p >>= f) := by
  refine Prog.Logs.bind (Q := fun h' x => Unwritten h' ∧ ∀ e, x = .error e → e.failed = true)
    ?_ fun h' x hx => ?_
  · refine Prog.Logs.mono (Prog.Logs.imp (Prog.Logs.gives (Prog.Does.logs hp))
      fun h' o ho hw => by rw [ho] at hw; cases hw) fun h' x hx => ?_
    obtain ⟨hfail, es, rfl, hes⟩ := hx
    refine ⟨fun e he => ?_, hfail⟩
    rcases List.mem_append.1 he with he | he
    · exact hh e he
    · exact Prog.Does.of_gives hp hes e he
  · cases x with
    | ok a => exact hf a h' hx.1
    | error e => exact ⟨hx.2 e rfl, hx.1.not_accepted⟩

/-- The write: if it is not accepted the call ends with an error, and else it goes to
    its end. -/
theorem write_then {o : Op} (status : o.Ans → Except Status α) {method : String}
    (hacc : ∀ r, o.accepts r = true ↔ ∃ a, status r = .ok a) (hh : Unwritten h)
    (hf : ∀ a, Concludes (f a)) :
    Ends h (perf o >>= fun r => orStatus method (status r) >>= f) := by
  refine ⟨fun _ => hh, fun r => ?_⟩
  change Ends (h ++ [⟨o, r⟩]) (orStatus method (status r) >>= f)
  cases hr : status r with
  | error s =>
    refine ⟨isError_errorContent, ?_⟩
    rintro ⟨e, he, heacc⟩
    rcases List.mem_append.1 he with he | he
    · exact hh.not_accepted ⟨e, he, heacc⟩
    · rw [List.mem_singleton.1 he] at heacc
      obtain ⟨a, ha⟩ := (hacc r).1 heacc
      rw [hr] at ha
      cases ha
  | ok a =>
    have hrest : Prog.Logs _ _ (h ++ [⟨o, r⟩]) (f a) := Prog.Logs.gives (Prog.Does.logs (hf a))
    refine Prog.Logs.mono (Prog.Logs.imp hrest fun h' o' ho hw => ?_) fun h' x hx => ?_
    · rw [ho] at hw
      cases hw
    · obtain ⟨⟨v, rfl, hv⟩, es, rfl, -⟩ := hx
      exact ⟨hv, ⟨o, r⟩, List.mem_append_left _ (List.mem_append_right _ List.mem_cons_self),
        (hacc r).2 ⟨a, hr⟩⟩

/-- An ingestion writes once at most. -/
theorem ingestWith_ends {request : IngestRequest} {catalogue : DedupCatalogue}
    (hh : Unwritten h) : Ends h (ingestWith cfg user request catalogue) := by
  rw [ingestWith]
  refine asks_then (Quietly.perf rfl).asks hh fun now h hh => ?_
  refine asks_then rewriteMessages_asks hh fun messages h hh => ?_
  refine asks_then (Quietly.perf rfl).asks hh fun sinceMs h hh => ?_
  refine write_then (o := .ingest _) (fun r => r) (fun r => ?_) hh fun resp => ?_
  · cases r <;> simp [Op.accepts]
  · exact awaitExtractionJobsForSchema_quietly.concludes fun _ => .success

theorem ingestRawWith_ends {request : IngestRawRequest} {catalogue : DedupCatalogue}
    (hh : Unwritten h) : Ends h (ingestRawWith cfg user request catalogue) := by
  rw [ingestRawWith]
  refine asks_then scanMessage_asks hh fun text h hh => ?_
  refine asks_then canonicalizeIf_asks hh fun text h hh => ?_
  refine write_then (o := .ingestRaw _) (fun r => r) (fun r => ?_) hh fun resp => ?_
  · cases r <;> simp [Op.accepts]
  · exact recordMany_quietly.concludes fun recorded =>
      awaitMsgIdsComplete_quietly.concludes fun _ => .success

theorem ingest_ends (hh : Unwritten h) : Ends h (ingest cfg user args) :=
  asks_then .built hh fun _ _ hh => asks_then acquire_quietly.asks hh fun _ _ hh =>
    asks_then collectDedupCatalogue_quietly.asks hh fun _ _ hh => ingestWith_ends hh

theorem ingestRaw_ends (hh : Unwritten h) : Ends h (ingestRaw cfg user args) :=
  asks_then .built hh fun _ _ hh => asks_then acquire_quietly.asks hh fun _ _ hh =>
    asks_then collectDedupCatalogue_quietly.asks hh fun _ _ hh => ingestRawWith_ends hh

theorem feedback_ends (hh : Unwritten h) : Ends h (feedback user args) := by
  refine asks_then .built hh fun req h hh => asks_then checkOwner_asks hh fun _ h hh => ?_
  refine write_then (o := .feedback _) (fun r => r) (fun r => ?_) hh fun _ => .success
  cases r <;> simp [Op.accepts]

/-- The tools that write. -/
def ToolName.writes : ToolName → Bool
  | .ingest | .ingestRaw | .feedback => true
  | _ => false

/-- A tool that writes ends with the outcome of its write. -/
theorem runTool_ends {tool : ToolName} (htool : tool.writes = true) (hh : Unwritten h) :
    Ends h (runTool cfg user args tool) := by
  cases tool with
  | ingest => exact ingest_ends hh
  | ingestRaw => exact ingestRaw_ends hh
  | feedback => exact feedback_ends hh
  | _ => cases htool

/-- The owner is checked quietly, however that ends. -/
theorem checkOwner_quiet {tool : String} {kind : OwnershipKind} {foreignId : String} :
    Does (fun o : Op => o.quiet = true) (fun _ => True) (checkOwner user tool kind foreignId) := by
  refine Does.bind (Prog.Does.mono verify_quietly fun _ _ _ _ => trivial) fun x _ => ?_
  match x with
  | .ok true => exact Does.pure trivial
  | .ok false => exact Does.fail
  | .error e => exact Does.fail

theorem recordSearch_quietly {searchId : String} : Quietly (recordSearch user searchId) := by
  refine Quietly.ite .pure (Quietly.bind record_quietly fun x => ?_)
  cases x <;> exact .pure

theorem recordSharedSearch_quietly {searchId : Option String} :
    Quietly (recordSharedSearch user searchId) := by
  cases searchId with
  | some sid => exact recordSearch_quietly
  | none => exact .pure

/-- The other tools are quiet, however they end. -/
theorem runTool_quiet {tool : ToolName} (htool : tool.writes = false) :
    Does (fun o : Op => o.quiet = true) (fun _ => True) (runTool cfg user args tool) := by
  cases tool with
  | search =>
    refine Does.bind (built_does fun _ _ => trivial) fun _ _ => Does.bind (perf_does rfl) fun _ _ =>
      Does.bind (perf_does rfl) fun _ _ => Does.bind orStatus_does fun _ _ => ?_
    exact Quietly.then recordSearch_quietly fun _ =>
      Quietly.then recordSharedSearch_quietly fun _ => Does.pure trivial
  | queryNodes =>
    exact Does.bind (built_does fun _ _ => trivial) fun _ _ => Does.bind (perf_does rfl) fun _ _ =>
      Does.bind (perf_does rfl) fun _ _ => Does.bind orStatus_does fun _ _ => Does.pure trivial
  | getSchema =>
    exact Does.bind (perf_does rfl) fun _ _ => Does.bind (perf_does rfl) fun _ _ =>
      Does.bind orStatus_does fun _ _ => Does.pure trivial
  | listSchemas =>
    exact Does.bind (perf_does rfl) fun _ _ => Does.bind orStatus_does fun _ _ => Does.pure trivial
  | stats =>
    exact Does.bind (built_does fun _ _ => trivial) fun _ _ => Does.bind (perf_does rfl) fun _ _ =>
      Does.bind (perf_does rfl) fun _ _ => Does.bind orStatus_does fun _ _ => Does.pure trivial
  | getTraceableChain =>
    exact Does.bind (built_does fun _ _ => trivial) fun _ _ => Does.bind (perf_does rfl) fun _ _ =>
      Does.bind (perf_does rfl) fun _ _ => Does.bind pickChain_does fun _ _ => Does.pure trivial
  | getJobStatus =>
    exact Does.bind (built_does fun _ _ => trivial) fun _ _ => Does.bind checkOwner_quiet fun _ _ =>
      Does.bind (perf_does rfl) fun _ _ => Does.bind orStatus_does fun _ _ => Does.pure trivial
  | _ => cases htool

end Calls

/-! ## Runs -/

/-- The call is of a tool that writes. -/
def CallsWriter (params : Json) : Prop :=
  ∃ tool args, readCall params = .ok (tool, args) ∧ tool.writes = true

/-- What a request may do after its history: only calls of tools that write do so, and
    no more than once. -/
def MayDo : Request → History → Op → Prop
  | .tool _ params, h, o => o.writes = true → Unwritten h ∧ CallsWriter params
  | _, _, o => o.writes = false

/-- What the answer to a request tells of its history. -/
def Tells : Request → History → Except Exit Reply → Prop
  | .tool _ params, h, x =>
    Accepted h ↔ CallsWriter params ∧ ∃ r, told x = some r ∧ r.isError = false
  | _, _, _ => True

section Runs

variable {cfg : Config}

/-- A call that failed tells of no success. -/
theorem told_error {e : Exit} (he : e.failed = true) :
    ¬∃ r, told (.error e) = some r ∧ r.isError = false := by
  rintro ⟨r, hr, hfalse⟩
  cases e with
  | reply r' =>
    cases hr
    rw [Exit.failed] at he
    rw [he] at hfalse
    cases hfalse
  | panic => cases hr

theorem call_logs {user : AuthenticatedUser} {params : Json} :
    Prog.Logs (MayDo (.tool user params)) (Tells (.tool user params)) [] (call cfg user params) := by
  have hnil : Unwritten [] := fun e he => absurd he List.not_mem_nil
  rw [call]
  cases hread : readCall params with
  | error e =>
    -- no tool was called
    have hnone : ¬CallsWriter params := by
      rintro ⟨_, _, hcall, -⟩
      rw [hread] at hcall
      cases hcall
    exact iff_of_false hnil.not_accepted fun h => hnone h.1
  | ok x =>
    obtain ⟨tool, args⟩ := x
    have hcalls : CallsWriter params ↔ tool.writes = true := by
      refine ⟨?_, fun hw => ⟨tool, args, hread, hw⟩⟩
      rintro ⟨_, _, hcall, hw⟩
      rw [hread] at hcall
      cases hcall
      exact hw
    change Prog.Logs _ _ _
      (runTool cfg user args tool >>= fun content => pure (.content content) : Tool Reply)
    cases htool : tool.writes with
    | true =>
      have hends : Ends [] (runTool cfg user args tool) := runTool_ends htool hnil
      refine Prog.Logs.bind (Prog.Logs.imp hends fun h o ho hw =>
        ⟨ho hw, hcalls.2 htool⟩) fun h x hx => ?_
      cases x with
      | ok v => exact iff_of_true hx.2 ⟨hcalls.2 htool, .content v, rfl, hx.1⟩
      | error e => exact iff_of_false hx.2 fun ht => told_error hx.1 ht.2
    | false =>
      have hreads : Prog.Does (fun o : Op => o.writes = false) _ (runTool cfg user args tool) :=
        Prog.Does.imp (fun o ho => (Op.quiet_iff.1 ho).1) (runTool_quiet htool)
      refine Prog.Logs.bind (Prog.Logs.imp (Prog.Logs.gives (Prog.Does.logs hreads))
        fun h o ho hw => by rw [ho] at hw; cases hw) fun h x hx => ?_
      obtain ⟨-, es, heq, hes⟩ := hx
      have hunwritten : Unwritten h := by
        rw [heq, List.nil_append]
        exact Prog.Does.of_gives hreads hes
      have hnot : ¬CallsWriter params := fun hc => by rw [hcalls.1 hc] at htool; cases htool
      cases x with
      | ok v => exact iff_of_false hunwritten.not_accepted fun ht => hnot ht.1
      | error e => exact iff_of_false hunwritten.not_accepted fun ht => hnot ht.1

theorem handle_logs (req : Request) : (handle cfg req).Logs (MayDo req) (Tells req) [] := by
  have hflag : ∀ {p : Tool (Except StorageError Bool)}, Quietly p →
      ((do let r ← p; pure (.flag r) : Tool Reply)).Does (fun o : Op => o.writes = false)
        fun _ => True := fun hp =>
    Prog.Does.mono (Quietly.bind hp fun _ => .pure).asks fun _ _ => trivial
  cases req with
  | tool user params => exact call_logs
  | record kind foreignId userId => exact Prog.Does.logs (hflag record_quietly)
  | recordMany kind foreignIds userId => exact Prog.Does.logs (hflag recordMany_quietly)
  | verify kind foreignId userId => exact Prog.Does.logs (hflag verify_quietly)

/-- In the run that reached `s`, calls write at most once, and their replies tell whether
    they did. -/
structure Delivered (s : Sys) : Prop where
  once : ∀ n, (historyOf n s.conf.trace).countP (fun x => x.1.writes) ≤ 1
  only : ∀ n req o r, .did n req o r ∈ s.conf.trace → o.writes = true →
    ∃ user params, req = .tool user params ∧ CallsWriter params
  told : ∀ n user params x, .answered n (.tool user params) x ∈ s.conf.trace →
    (Accepted (historyOf n s.conf.trace) ↔
      CallsWriter params ∧ ∃ r, told x = some r ∧ r.isError = false)

/-- In every run, a call writes at most once to the graph server, only a tool that is to
    write does, and the reply is no error if and only if the write was accepted. -/
theorem writes_delivered {ok : Sys → Serving.Move Request Input World → Prop} {s : Sys}
    (h : Reached cfg ok s) : Delivered s := by
  have hrec : Recorded MayDo Tells s := Server.recorded handle_logs h
  refine ⟨fun n => hrec.countP_le_one (fun req l o ho hw => ?_) n, fun n req o r he hw => ?_,
    fun n user params x he => (hrec.answered n _ x he).1⟩
  · cases req with
    | tool user params => exact (ho hw).1
    | _ => exact absurd (hw.symm.trans ho) (by decide)
  · obtain ⟨l₁, l₂, htrace⟩ := List.append_of_mem he
    have hdid := hrec.did l₁ n req o r l₂ htrace
    cases req with
    | tool user params => exact ⟨user, params, rfl, (hdid hw).2⟩
    | _ => exact absurd (hw.symm.trans hdid) (by decide)

/-- The write that an event is, if it was accepted. -/
def writeAccepted : Done → Option ℕ
  | .did n _ o r => if o.accepts r then some n else none
  | _ => none

/-- The third request writes, and says so. -/
theorem writes_delivered_feedback : ∃ s, Reached .sample (fun _ _ => True) s ∧
    s.conf.trace.filterMap writeAccepted = [2] ∧ Delivered s := by
  obtain ⟨s, hs, hwrites⟩ : ∃ s, exec (server .sample).step (fun _ _ => true)
      (.start sampleStart) twoRecorders = some s ∧
      s.conf.trace.filterMap writeAccepted = [2] :=
    Option.map_eq_some_iff.1 (by decide)
  have hr : Reached .sample (fun _ _ => True) s :=
    .exec (fun _ _ _ => trivial) (.init ⟨_, sampleStart_starts, rfl⟩) hs
  exact ⟨s, hr, hwrites, writes_delivered hr⟩

end Runs

end LlmMemory.Vegapunk
