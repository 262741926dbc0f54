import LlmMemory.Lib.Rows
import LlmMemory.Vegapunk.Operations

/-!
# Programs of the tools

The parts that the handlers are made of: the functions on the table
`tool_ownership`, the catalogue of entities, the calls of the canonicalizer, and
the waiting for the jobs that an ingestion starts.

A loop that ends by a deadline has the rounds that it may have before it: a round
but the last one sleeps for `JOB_POLL_INTERVAL_MS`.
-/

namespace LlmMemory.Vegapunk

open Effects

/-! ## Replies -/

/-- What a call comes to: the content of a tool, an error of the protocol, or the
    result of a function on `tool_ownership`. -/
inductive Reply
  | content (v : Json)
  | rpcError (code : Int) (message : String)
  | flag (r : Except StorageError Bool)

/-- Why a call ends early. -/
inductive Exit
  | reply (r : Reply)
  | panic

/-- A part of a tool, which may end it early with an answer. -/
abbrev Tool (α : Type) : Type := Attempt ToolSig Exit α

/-- An operation whose result is used as it is. -/
def perf (o : Op) : Tool o.Ans := Attempt.call (E := ToolSig) o .ok

/-- The time of the day, in milliseconds. -/
def nowMs : Tool Int := perf .nowMs

/-- The monotonic clock, in milliseconds. -/
def instant : Tool Int := perf .instant

/-- The call ends with this content. -/
def answer {α : Type} (v : Json) : Tool α := Prog.ret (.error (.reply (.content v)))

/-- A computation that panics if it gives nothing. -/
def orPanic {α : Type} (x : Option α) : Tool α :=
  Prog.ret (match x with
    | some a => .ok a
    | none => .error .panic)

/-- A text content. -/
def textContent (body : String) : Json :=
  .arr [.object [("type", .str "text"), ("text", .str body)]]

/-- The content of an error. -/
def errorContent (body : String) : Json :=
  .object [("content", textContent body), ("isError", .bool true)]

/-- The content of a success, as text and as a value. -/
def successContent (structured : Json) : Json :=
  .object [("content", textContent structured.toText), ("structuredContent", structured),
    ("isError", .bool false)]

/-- The messages of these codes may be shown to a client. -/
def messageIsClientSafe : Code → Bool
  | .cancelled | .invalidArgument | .deadlineExceeded | .notFound | .alreadyExists
  | .permissionDenied | .resourceExhausted | .failedPrecondition | .aborted | .outOfRange
  | .unavailable | .unauthenticated => true
  | _ => false

/-- The error of a status. The message is shown only if it may be. -/
def tonicErrorContent (method : String) (status : Status) : Json :=
  errorContent (if messageIsClientSafe status.code then
    s!"vegapunk {method} failed: gRPC {status.code.debug}: {status.message}"
  else s!"vegapunk {method} failed: gRPC {status.code.debug} (details suppressed)")

/-- The error of arguments that are not accepted. -/
def invalidArgsContent (method reason : String) : Json :=
  errorContent s!"invalid arguments for '{method}': {reason}"

/-- The error of an id that another user owns. -/
def ownershipDeniedContent (tool : String) : Json :=
  errorContent s!"permission denied: '{tool}' identifier does not belong to caller"

/-- The error of a failure of the server itself. -/
def internalErrorContent (tool msg : String) : Json :=
  errorContent s!"internal error in '{tool}': {msg}"

/-- The error of a text that names a shared entity. -/
def sharedDedupBlockContent (method : String) (hit : EntityRef) : Json :=
  errorContent (s!"{method} blocked: '{hit.name}' ({hit.nodeType}) already exists in schema " ++
    s!"'{hit.schema}'. Reference the existing entity instead of re-ingesting it; this avoids " ++
    "cross-schema duplication.")

/-- The request built, or the end of the call. -/
def built {α : Type} (method : String) : Except String α → Tool α
  | .ok r => pure r
  | .error e => answer (invalidArgsContent method e)

/-- The response, or the end of the call. -/
def orStatus {α : Type} (method : String) : Except Status α → Tool α
  | .ok r => pure r
  | .error s => answer (tonicErrorContent method s)

/-! ## Ownership -/

/-- Whether the user owns the id, by a `SELECT`. -/
def verify (kind : OwnershipKind) (foreignId userId : String) :
    Tool (Except StorageError Bool) := do
  match ← perf (.selectOwner kind foreignId) with
  | .ok owner => pure (.ok (owner == some userId))
  | .error e => pure (.error e)

/-- Claim an id for the user: it is inserted, unless it is there already, and then its owner
    is looked up. -/
def record (kind : OwnershipKind) (foreignId userId : String) :
    Tool (Except StorageError Bool) := do
  let now ← nowMs
  match ← perf (.insertOwner ⟨kind, foreignId, userId, now⟩) with
  | .ok true => pure (.ok true)
  | .ok false => verify kind foreignId userId
  | .error e => pure (.error e)

/-- Whether the user owns all of the ids. -/
def verifyAll (kind : OwnershipKind) (userId : String) : List String →
    Tool (Except StorageError Bool)
  | [] => pure (.ok true)
  | id :: ids => do
    match ← verify kind id userId with
    | .ok true => verifyAll kind userId ids
    | .ok false => pure (.ok false)
    | .error e => pure (.error e)

/-- Claim ids for the user: they are inserted in one transaction, and each one is looked up
    after it. -/
def recordMany (kind : OwnershipKind) (foreignIds : List String) (userId : String) :
    Tool (Except StorageError Bool) :=
  if foreignIds = [] then pure (.ok true)
  else do
    let now ← nowMs
    match ← perf (.insertOwners (foreignIds.map fun id => ⟨kind, id, userId, now⟩)) with
    | .ok () => verifyAll kind userId foreignIds
    | .error e => pure (.error e)

/-! ## The catalogue -/

/-- The types of the nodes that a text is scanned for. -/
def DEDUP_SCAN_NODE_TYPES : List String := ["Project", "Person", "Specification", "Topic"]
/-- The greatest number of nodes of a type that are fetched. -/
def DEDUP_FETCH_LIMIT_PER_TYPE : Int := 1000

/-- The names of the nodes of a type; none if the request fails. -/
def fetchEntityNames (schema nodeType : String) : Tool (List String) := do
  match ← perf (.queryNodes ⟨schema, nodeType, [], none, none, some DEDUP_FETCH_LIMIT_PER_TYPE,
    some 0⟩) with
  | .ok r => pure ((r.nodes.filterMap fun n => n.attributes.lookup "name").filter
      fun name => trimmed name ≠ "")
  | .error _ => pure []

/-- The entities of the types, in the shared schema and in that of the user. -/
def collectEntities (U : Unicode) (sharedSchema userSchema : String) : List String →
    DedupCatalogue → Tool DedupCatalogue
  | [], catalogue => pure catalogue
  | nodeType :: types, catalogue => do
    let sharedNames ← fetchEntityNames sharedSchema nodeType
    let personalNames ← fetchEntityNames userSchema nodeType
    collectEntities U sharedSchema userSchema types
      ⟨catalogue.shared ++ sharedNames.map fun name => .new U name nodeType sharedSchema,
        catalogue.personal ++ personalNames.map fun name => .new U name nodeType userSchema⟩

/-- The catalogue of the shared schema and that of the user, a type after the other. -/
def collectDedupCatalogue (U : Unicode) (sharedSchema userSchema : String) : Tool DedupCatalogue :=
  collectEntities U sharedSchema userSchema DEDUP_SCAN_NODE_TYPES {}

/-- The names, trimmed, each one once, until there are `cap`. -/
def distinctNames (cap : ℕ) (out : List String) : List EntityRef → List String
  | [] => out
  | ent :: ents =>
    if cap ≤ out.length then out
    else if trimmed ent.name = "" ∨ trimmed ent.name ∈ out then distinctNames cap out ents
    else distinctNames cap (out ++ [trimmed ent.name]) ents

/-- The names of a catalogue for the prompt, none twice, and not too many of them. -/
def catalogueCanonicalNames (catalogue : DedupCatalogue) : List String :=
  distinctNames MAX_CATALOGUE_ENTRIES [] (catalogue.shared ++ catalogue.personal)

/-- The text as the scan leaves it, unless it blocks the call. -/
def scanMessage (U : Unicode) (method : String) (catalogue : DedupCatalogue) (text : String) :
    Tool String := do
  match ← orPanic (scanTextWithCatalogue U catalogue text) with
  | .blockedByShared hit => answer (sharedDedupBlockContent method hit)
  | .rewritten newText _ => pure newText
  | .proceed => pure text

/-! ## The canonicalizer -/

/-- An ingestion of more messages is not canonicalized. -/
def INGEST_LLM_CANONICALIZE_MAX_MESSAGES : ℕ := 16
/-- The time that an ingestion has for all of its calls of the language model, in seconds. -/
def INGEST_LLM_TOTAL_BUDGET_SECS : Int := 60

/-- Messages are canonicalized if there is a canonicalizer, and not too many of them. -/
def shouldRunLlmCanonicalize (canonicalizerPresent : Bool) (nMessages : ℕ) : Bool :=
  canonicalizerPresent && nMessages ≤ INGEST_LLM_CANONICALIZE_MAX_MESSAGES

/-- The text rewritten, or as it is if that fails. -/
def replyText (text : String) (r : GeminiReply) : String :=
  match canonicalizeReply text r with
  | .ok out => out
  | .error _ => text

/-- Where there is a canonicalizer. -/
def applyLlmCanonicalize (catalogueNames : List String) (text : String) : Tool String :=
  match canonicalizeRequest catalogueNames text with
  | none => pure text
  | some r => do
    let reply ← perf (.gemini r)
    pure (replyText text reply)

/-- The same within a time limit; none if it is over. -/
def applyLlmCanonicalizeWithin (timeoutMs : Int) (catalogueNames : List String) (text : String) :
    Tool (Option String) :=
  match canonicalizeRequest catalogueNames text with
  | none => pure (some text)
  | some r => do
    let reply ← perf (.geminiWithin r timeoutMs)
    pure (reply.map (replyText text))

/-! ## Waiting for jobs -/

/-- The status of a job that is done. -/
def JOB_STATUS_OK : String := "completed"
/-- The status of a job that failed. -/
def JOB_STATUS_FAILED : String := "failed"
/-- The status of a job that failed for good. -/
def JOB_STATUS_DEAD_LETTER : String := "dead_letter"
/-- The states of a message that do not change any more. -/
def GET_JOB_STATUS_TERMINAL : List String := [JOB_STATUS_OK, JOB_STATUS_FAILED]
/-- How long jobs are waited for, in seconds. -/
def JOB_AWAIT_TIMEOUT_SECS : Int := 120
/-- How long it takes until jobs are asked for again, in milliseconds. -/
def JOB_POLL_INTERVAL_MS : Int := 500
/-- How much earlier than the ingestion the list of jobs begins, in milliseconds. -/
def SINCE_MS_SKEW_MARGIN : Int := 5000
/-- The number of jobs on a page of their list. -/
def LIST_JOBS_PAGE_SIZE : Int := 500
/-- The greatest number of jobs that are listed. -/
def LIST_JOBS_HARD_CAP : Int := 50000
/-- How many messages are asked for at once. -/
def JOB_POLL_PARALLELISM : ℕ := 32
/-- The time that a request for the state of a message has, in seconds. -/
def GET_JOB_STATUS_RPC_TIMEOUT_SECS : Int := 10
/-- The time that a request for a page of the jobs has, in seconds. -/
def LIST_JOBS_RPC_TIMEOUT_SECS : Int := 15

/-- The rounds that a loop may have before the deadline. -/
def POLL_ROUNDS : ℕ := (JOB_AWAIT_TIMEOUT_SECS * 1000 / JOB_POLL_INTERVAL_MS + 1).toNat

/-- What came of the jobs that were waited for. -/
inductive AwaitStatus
  | ok
  | partially
  | timeout
  deriving DecidableEq, Repr

/-- The word for it in the answer of a tool. -/
def AwaitStatus.asStr : AwaitStatus → String
  | ok => "ok"
  | partially => "partial"
  | timeout => "timeout"

/-- Sleep until the next round, or the deadline. -/
def sleepUntil (deadline : Int) : Tool Unit := do
  let now ← instant
  let sleepFor := min JOB_POLL_INTERVAL_MS (max 0 (deadline - now))
  if sleepFor = 0 then pure () else perf (.sleep sleepFor)

/-- The replies about the jobs of the chunks, until the deadline. -/
def pollChunks (deadline : Int) : List (List String) →
    Tool (List (String × Except Status GetJobStatusResponse))
  | [] => pure []
  | chunk :: chunks => do
    let now ← instant
    if deadline ≤ now then pure []
    else do
      let reply ← perf (.pollJobStatus chunk
        (min (GET_JOB_STATUS_RPC_TIMEOUT_SECS * 1000) (deadline - now)))
      let results := chunk.filterMap fun id => (reply id).map fun r => (id, r)
      let more ← pollChunks deadline chunks
      pure (results ++ more)

/-- The jobs that are pending after a reply, and whether one was not completed. -/
def settle (pending : List String) (sawNonOk : Bool) :
    List (String × Except Status GetJobStatusResponse) → List String × Bool
  | [] => (pending, sawNonOk)
  | (msgId, .ok s) :: results =>
    if s.overallStatus ∈ GET_JOB_STATUS_TERMINAL then
      settle (pending.filter (· ≠ msgId)) (sawNonOk || s.overallStatus != JOB_STATUS_OK) results
    else settle pending sawNonOk results
  -- the job stays pending, and is asked for again
  | (_, .error _) :: results => settle pending sawNonOk results

/-- What came of the messages, given those that are still waited for and whether one of them
    failed. -/
def awaitResult (pending : List String) (sawNonOk : Bool) : AwaitStatus :=
  if pending ≠ [] then .timeout else if sawNonOk then .partially else .ok

/-- The rounds of the loop that asks for the states of the messages that are waited for, as
    many as are left. -/
def awaitRounds (deadline : Int) : ℕ → List String → Bool → Tool AwaitStatus
  | 0, pending, sawNonOk => pure (awaitResult pending sawNonOk)
  | rounds + 1, pending, sawNonOk =>
    if pending = [] then pure (awaitResult pending sawNonOk)
    else do
      let now ← instant
      if deadline ≤ now then pure (awaitResult pending sawNonOk)
      else do
        let results ← pollChunks deadline (pending.toChunks JOB_POLL_PARALLELISM)
        let (pending, sawNonOk) := settle pending sawNonOk results
        if pending = [] then pure (awaitResult pending sawNonOk)
        else do
          sleepUntil deadline
          awaitRounds deadline rounds pending sawNonOk

/-- Wait until the messages are in a state that does not change any more, or the time is
    up. -/
def awaitMsgIdsComplete (msgIds : List String) : Tool AwaitStatus :=
  if msgIds = [] then pure .ok
  else do
    let now ← instant
    awaitRounds (now + JOB_AWAIT_TIMEOUT_SECS * 1000) POLL_ROUNDS msgIds.dedup false

/-- The jobs listed, from the page at `offset` on: each one as it was listed last.
    None if the time of the round is up. -/
def listPages (sinceMs timeoutMs : Int) : ℕ → Int → Option Int → List JobInfo →
    Tool (Option (Except Status (List JobInfo)))
  | 0, _, _, byId => pure (some (.ok byId))
  | pages + 1, offset, effectiveCap, byId => do
    match ← perf (.listJobs ⟨sinceMs, offset, LIST_JOBS_PAGE_SIZE, "entity_extraction"⟩
      (LIST_JOBS_RPC_TIMEOUT_SECS * 1000) timeoutMs) with
    | .roundTimedOut => pure none
    | .rpcTimedOut => pure (some (.error ⟨.deadlineExceeded, "list_jobs rpc timed out"⟩))
    | .reply (.error s) => pure (some (.error s))
    | .reply (.ok inner) =>
      let observedCap := min inner.totalCount LIST_JOBS_HARD_CAP
      let cap := match effectiveCap with
        | some c => max c observedCap
        | none => observedCap
      let byId := inner.jobs.foldl (fun l j => Rows.upsert (·.jobId) j l) byId
      -- a page that is not full is the last one
      if inner.jobs.length < LIST_JOBS_PAGE_SIZE then pure (some (.ok byId))
      else if cap ≤ offset + LIST_JOBS_PAGE_SIZE then pure (some (.ok byId))
      else listPages sinceMs timeoutMs pages (offset + LIST_JOBS_PAGE_SIZE) (some cap) byId

/-- There are no more pages than the cap allows. -/
def listExtractionJobsPaged (sinceMs timeoutMs : Int) :
    Tool (Option (Except Status (List JobInfo))) :=
  listPages sinceMs timeoutMs (LIST_JOBS_HARD_CAP / LIST_JOBS_PAGE_SIZE).toNat 0 none []

/-- The jobs of the schema that were completed, and those that failed. -/
def countTerminalJobsForSchema (jobs : List JobInfo) (schemaPrefix : String) : Int × Int :=
  let inSchema := jobs.filter fun j =>
    (j.msgId.map fun m => schemaPrefix.toList.isPrefixOf m.toList).getD false
  (inSchema.countP fun j => j.status = JOB_STATUS_OK,
    inSchema.countP fun j => j.status = JOB_STATUS_FAILED ∨ j.status = JOB_STATUS_DEAD_LETTER)

/-- The rounds of the loop that lists the jobs of a schema, as many as are left, with the
    counts of the first list as the baseline. -/
def awaitExtraction (schemaPrefix : String) (sinceMs deadline expectedCount : Int) :
    ℕ → Option (Int × Int) → Tool AwaitStatus
  | 0, _ => pure .timeout
  | rounds + 1, baseline => do
    let now ← instant
    if deadline ≤ now then pure .timeout
    else do
      match ← listExtractionJobsPaged sinceMs (deadline - now) with
      | none => pure .timeout
      -- an error of one round is no reason to give up
      | some (.error _) => do
        sleepUntil deadline
        awaitExtraction schemaPrefix sinceMs deadline expectedCount rounds baseline
      | some (.ok jobs) =>
        let counts := countTerminalJobsForSchema jobs schemaPrefix
        -- the jobs of the first listing were there before
        let base := baseline.getD counts
        let deltaOk := counts.1 - base.1
        let deltaFailed := counts.2 - base.2
        if expectedCount ≤ deltaOk + deltaFailed then
          pure (if 0 < deltaFailed then .partially else .ok)
        else do
          sleepUntil deadline
          awaitExtraction schemaPrefix sinceMs deadline expectedCount rounds (some base)

/-- Wait until as many more jobs of the schema of the user came to an end as are expected,
    or the time is up. -/
def awaitExtractionJobsForSchema (userSchema : String) (sinceMs expectedCount : Int) :
    Tool AwaitStatus :=
  if expectedCount ≤ 0 then pure .ok
  else do
    let now ← instant
    awaitExtraction (userSchema ++ ":") (max (sinceMs - SINCE_MS_SKEW_MARGIN) (-2 ^ 63))
      (now + JOB_AWAIT_TIMEOUT_SECS * 1000) expectedCount POLL_ROUNDS none

end LlmMemory.Vegapunk
