import LlmMemory.Lib.Effects
import LlmMemory.Vegapunk.Canonicalize

/-!
# The operations of the tools

What the handlers of the tools do to the world (`Op`): requests to the graph
server and to the language model, statements on the table `tool_ownership`, and
the locks that ingestions are serialized by. The graph server, the language model
and the clocks may answer anything; a statement may fail.

The requests that a handler issues at the same time, and waits for, are operations
one after the other.
-/

namespace LlmMemory.Vegapunk

open Effects

/-! ## Answers of the graph server -/

/-- The codes of gRPC. -/
inductive Code
  | ok | cancelled | unknown | invalidArgument | deadlineExceeded | notFound | alreadyExists
  | permissionDenied | resourceExhausted | failedPrecondition | aborted | outOfRange
  | unimplemented | internal | unavailable | dataLoss | unauthenticated
  deriving DecidableEq, Repr

/-- The debug format. -/
def Code.debug : Code → String
  | ok => "Ok"
  | cancelled => "Cancelled"
  | unknown => "Unknown"
  | invalidArgument => "InvalidArgument"
  | deadlineExceeded => "DeadlineExceeded"
  | notFound => "NotFound"
  | alreadyExists => "AlreadyExists"
  | permissionDenied => "PermissionDenied"
  | resourceExhausted => "ResourceExhausted"
  | failedPrecondition => "FailedPrecondition"
  | aborted => "Aborted"
  | outOfRange => "OutOfRange"
  | unimplemented => "Unimplemented"
  | internal => "Internal"
  | unavailable => "Unavailable"
  | dataLoss => "DataLoss"
  | unauthenticated => "Unauthenticated"

/-- A status that is an error: its code and its message. -/
structure Status where
  code : Code
  message : String
  deriving DecidableEq, Repr

/-- A 32-bit float, by its bits. -/
abbrev F32 : Type := BitVec 32

/-- A node that a search found, with its score. -/
structure SearchResultItem where
  type : String
  id : Option String
  text : Option String
  score : Option F32
  person : Option String
  timestamp : Option String
  summary : Option String
  channel : Option String
  decidedAt : Option String
  rationales : List String
  deriving DecidableEq, Repr

/-- A pattern of another project like that of the results. -/
structure SimilarPattern where
  sourceProject : String
  nodes : List SearchResultItem
  structuralSimilarity : F32
  deriving DecidableEq, Repr

/-- The response to a search, with the id that feedback refers to. -/
structure SearchResponse where
  results : List SearchResultItem
  searchId : String
  totalCount : Int
  similarPatterns : List SimilarPattern
  deriving DecidableEq, Repr

/-- A schema, as `GetSchema` and `ListSchemas` give it. -/
structure SchemaListItem where
  name : String
  version : ℕ
  description : String
  schemaYaml : String
  deriving DecidableEq, Repr

/-- The response to an ingestion of messages. -/
structure IngestResponse where
  ingestedCount : Int
  jobId : Option String
  deriving DecidableEq, Repr

/-- The response to an ingestion of a raw text, with the ids of its chunks. -/
structure IngestRawResponse where
  chunkCount : Int
  msgIds : List String
  deriving DecidableEq, Repr

/-- A node that was listed. -/
structure NodeResult where
  nodeId : String
  nodeType : String
  attributes : List (String × String)
  deriving DecidableEq, Repr

/-- A page of a list of nodes, and how many there are. -/
structure QueryNodesResponse where
  nodes : List NodeResult
  totalCount : Int
  deriving DecidableEq, Repr

/-- The statistics of a schema. -/
structure GetStatsResponse where
  nodeCount : Int
  edgeCount : Int
  vectorCount : Int
  communityCount : Int
  deriving DecidableEq, Repr

/-- A link of a chain of provenance. -/
structure ChainLink where
  nodeId : String
  nodeType : String
  displayText : String
  edgeType : Option String
  depth : Int
  timestamp : Option Int
  deriving DecidableEq, Repr

/-- A job of a message. -/
structure JobStatusItem where
  jobType : String
  status : String
  error : Option String
  deriving DecidableEq, Repr

/-- The response to a request for the state of a message. -/
structure GetJobStatusResponse where
  msgId : String
  jobs : List JobStatusItem
  overallStatus : String
  deriving DecidableEq, Repr

/-- A row of the list of jobs. -/
structure JobInfo where
  jobId : String
  status : String
  createdAt : Int
  msgId : Option String
  deriving DecidableEq, Repr

/-- A page of the list of jobs, and how many there are. -/
structure ListJobsResponse where
  jobs : List JobInfo
  totalCount : Int
  deriving DecidableEq, Repr

/-- Feedback on a search. -/
structure FeedbackRequest where
  searchId : String
  rating : Int
  comment : String
  deriving DecidableEq, Repr

/-- The request for a page of the list of jobs. -/
structure ListJobsRequest where
  sinceMs : Int
  offset : Int
  limit : Int
  jobType : String
  deriving DecidableEq, Repr

/-- How a listing of jobs, with a time limit of its own, comes out; the round of
    polling it is part of may also be over. -/
inductive ListJobsReply
  | reply (r : Except Status ListJobsResponse)
  | rpcTimedOut
  | roundTimedOut

/-! ## Tables and locks -/

/-- What an id that is owned is of. -/
inductive OwnershipKind
  | search
  | msg
  deriving DecidableEq, Repr

/-- A failure of the database. -/
inductive StorageError
  | sqlx
  deriving DecidableEq, Repr

/-- A row of `tool_ownership`, whose key is the kind and the id. -/
structure OwnershipRow where
  kind : OwnershipKind
  foreignId : String
  userId : String
  createdAt : Int
  deriving DecidableEq, Repr

/-- The user whose row is the first one for the id. -/
def ownerOf (rows : List OwnershipRow) (kind : OwnershipKind) (foreignId : String) :
    Option String :=
  (rows.find? fun r => r.kind = kind ∧ r.foreignId = foreignId).map (·.userId)

/-- `INSERT OR IGNORE`, which says whether the row was inserted. It fails if the
    row is of no user. -/
def insertOrIgnore (users : List String) (rows : List OwnershipRow) (row : OwnershipRow) :
    Option (Bool × List OwnershipRow) :=
  if (ownerOf rows row.kind row.foreignId).isSome then some (false, rows)
  else if row.userId ∈ users then some (true, rows ++ [row]) else none

/-- The rows inserted in a transaction, which fails if an insert does. -/
def insertAll (users : List String) (rows : List OwnershipRow) :
    List OwnershipRow → Option (List OwnershipRow)
  | [] => some rows
  | row :: new => (insertOrIgnore users rows row).bind fun x => insertAll users x.2 new

/-- What the handlers share: the ids of the users, the table `tool_ownership`, the
    locks of the schemas, by their numbers, and the locks held, each with its
    holder. -/
structure State where
  users : List String
  ownership : List OwnershipRow
  schemas : List (String × ℕ) := []
  held : List (ℕ × ℕ) := []
  deriving DecidableEq, Repr

/-- The lock of a schema, which is new the first time. (The mutex of the map is held
    during this only.) -/
def State.lockFor (s : State) (schema : String) : ℕ × State :=
  match s.schemas.lookup schema with
  | some existing => (existing, s)
  | none => (s.schemas.length, { s with schemas := s.schemas ++ [(schema, s.schemas.length)] })

/-- The holder releases what it holds. -/
def State.release (s : State) (holder : ℕ) : State :=
  { s with held := s.held.filter fun x => x.2 ≠ holder }

/-! ## Operations -/

/-- What the tools do outside of themselves: the calls of vegapunk, the statements on the
    table of owners, the locks of the schemas, the calls of the language model, and the
    clocks. -/
inductive Op
  | search (r : SearchRequest)
  | getSchema (r : GetSchemaRequest)
  | ingest (r : IngestRequest)
  | ingestRaw (r : IngestRawRequest)
  | queryNodes (r : QueryNodesRequest)
  | listSchemas
  | getStats (r : GetStatsRequest)
  | getTraceableChain (r : GetTraceableChainRequest)
  | feedback (r : FeedbackRequest)
  | getJobStatus (msgId : String)
  -- the requests for the states of several jobs, side by side
  | pollJobStatus (msgIds : List String) (timeoutMs : Int)
  | listJobs (r : ListJobsRequest) (timeoutMs roundTimeoutMs : Int)
  | insertOwner (row : OwnershipRow)
  -- the transaction of `record_many`
  | insertOwners (rows : List OwnershipRow)
  | selectOwner (kind : OwnershipKind) (foreignId : String)
  | lockFor (schema : String)
  | lock (l : ℕ)
  | gemini (r : GeminiRequest)
  | geminiWithin (r : GeminiRequest) (timeoutMs : Int)
  | nowMs
  | instant
  | sleep (ms : Int)

/-- What each of these gives. -/
def Op.Ans : Op → Type
  | .search _ => Except Status SearchResponse
  | .getSchema _ => Except Status SchemaListItem
  | .ingest _ => Except Status IngestResponse
  | .ingestRaw _ => Except Status IngestRawResponse
  | .queryNodes _ => Except Status QueryNodesResponse
  | .listSchemas => Except Status (List SchemaListItem)
  | .getStats _ => Except Status GetStatsResponse
  | .getTraceableChain _ => Except Status (List ChainLink)
  | .feedback _ => Except Status Unit
  | .getJobStatus _ => Except Status GetJobStatusResponse
  -- none for a task that could not be joined
  | .pollJobStatus _ _ => String → Option (Except Status GetJobStatusResponse)
  | .listJobs _ _ _ => ListJobsReply
  | .insertOwner _ => Except StorageError Bool
  | .insertOwners _ => Except StorageError Unit
  | .selectOwner _ _ => Except StorageError (Option String)
  | .lockFor _ => ℕ
  | .lock _ => Unit
  | .gemini _ => GeminiReply
  -- none if the time is up
  | .geminiWithin _ _ => Option GeminiReply
  | .nowMs => Int
  | .instant => Int
  | .sleep _ => Unit

/-- The operations of the tools, which start no tasks. -/
abbrev ToolSig : Sig := ⟨Op, Op.Ans, Empty⟩

/-- How an operation comes out: done, failed, or with an answer from outside. -/
inductive Input
  | ok
  | fail
  | answer (f : (o : Op) → Option o.Ans)

/-- What an operation of the `n`-th handling does. -/
def perform (n : ℕ) (input : Input) : (o : Op) → State → Option (o.Ans × State)
  | .insertOwner row, s =>
    match input with
    | .ok => match insertOrIgnore s.users s.ownership row with
      | some (inserted, rows) => some (.ok inserted, { s with ownership := rows })
      | none => some (.error .sqlx, s)
    | .fail => some (.error .sqlx, s)
    | .answer _ => none
  | .insertOwners new, s =>
    match input with
    | .ok => match insertAll s.users s.ownership new with
      | some rows => some (.ok (), { s with ownership := rows })
      | none => some (.error .sqlx, s)
    | .fail => some (.error .sqlx, s)
    | .answer _ => none
  | .selectOwner kind foreignId, s =>
    match input with
    | .ok => some (.ok (ownerOf s.ownership kind foreignId), s)
    | .fail => some (.error .sqlx, s)
    | .answer _ => none
  | .lockFor schema, s => some (s.lockFor schema)
  -- a lock that is held is waited for
  | .lock l, s =>
    if ∃ x ∈ s.held, x.1 = l then none else some ((), { s with held := s.held ++ [(l, n)] })
  | .sleep _, s => some ((), s)
  | o, s =>
    match input with
    | .answer f => (f o).map (·, s)
    | _ => none

end LlmMemory.Vegapunk
