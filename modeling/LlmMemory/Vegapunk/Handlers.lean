import LlmMemory.Lib.Serving
import LlmMemory.Vegapunk.Programs

/-!
# The tools

The handlers of the tools, the dispatch of a call to them (`call`), and the server
that handles calls side by side (`server`). The functions on `tool_ownership` may
also be called on their own, by anyone.

Whatever the end of a call, the lock that it holds is released with it: when it
returns, or panics, or is cancelled.
-/

namespace LlmMemory.Vegapunk

open Effects

/-- The user of an access token, with the schema in the graph. -/
structure AuthenticatedUser where
  userId : String
  clientId : String
  vegapunkSchema : String
  deriving DecidableEq, Repr

/-- The configuration, and the libraries that the handlers use: the JSON of a
    float, which is null if it is not finite. -/
structure Config where
  sharedSchemaName : String
  canonicalizer : Bool
  unicode : Unicode
  jsonF32 : F32 → Json

/-- A sum of 32 bits. -/
def i32Add (a b : Int) : Int := (a + b).bmod (2 ^ 32)

/-- A count of a response, which is nothing if there is none. -/
def optCount {α : Type} (count : α → Int) : Option α → Int
  | some a => count a
  | none => 0

/-! ## Search -/

section Search

/-- The bits but the sign. -/
def F32.magnitude (x : F32) : ℕ := x.toNat % 2 ^ 31

/-- The bits are those of no number. -/
def F32.isNan (x : F32) : Bool := 0x7F800000 < x.magnitude

/-- Negative infinity. -/
def F32.negInfinity : F32 := 0xFF800000

/-- The place of a float in the total order. -/
def F32.totalKey (x : F32) : Int := if x.toNat < 2 ^ 31 then x.magnitude else -x.magnitude - 1

/-- A score that is missing, or not a number, comes last. -/
def scoreOf (item : SearchResultItem) : F32 :=
  let raw := item.score.getD .negInfinity
  if raw.isNan then .negInfinity else raw

/-- The items of which no other has the type and the id, among those seen; those
    without an id are all kept. -/
def distinctItems (seen : List String) : List SearchResultItem → List SearchResultItem
  | [] => []
  | item :: items =>
    match item.id with
    | some id =>
      if id = "" then item :: distinctItems seen items
      else
        let key := item.type ++ ":" ++ id
        if key ∈ seen then distinctItems seen items
        else item :: distinctItems (key :: seen) items
    | none => item :: distinctItems seen items

/-- The items of both, the best ones first, up to the limit. -/
def mergeResults (limit : Option Int) (personal shared : List SearchResultItem) :
    List SearchResultItem :=
  let sorted := (distinctItems [] (personal ++ shared)).insertionSort fun a b =>
    (scoreOf b).totalKey ≤ (scoreOf a).totalKey
  match limit with
  | some n => sorted.take n.toNat
  | none => sorted

variable (cfg : Config)

/-- A node that a search found, as the answer has it. -/
def searchResultItemJson (item : SearchResultItem) : Json :=
  .object [("type", .str item.type), ("id", .option .str item.id),
    ("text", .option .str item.text), ("score", .option cfg.jsonF32 item.score),
    ("person", .option .str item.person), ("timestamp", .option .str item.timestamp),
    ("summary", .option .str item.summary), ("channel", .option .str item.channel),
    ("decided_at", .option .str item.decidedAt),
    ("rationales", .arr (item.rationales.map .str))]

/-- A pattern, as the answer has it. -/
def similarPatternJson (sp : SimilarPattern) : Json :=
  .object [("source_project", .str sp.sourceProject),
    ("structural_similarity", cfg.jsonF32 sp.structuralSimilarity),
    ("nodes", .arr (sp.nodes.map (searchResultItemJson cfg)))]

/-- Record who a search is of, if it has an id; and whether that was done. -/
def recordSearch (user : AuthenticatedUser) (searchId : String) : Tool (Option Bool) :=
  if searchId = "" then pure none
  else do
    match ← record .search searchId user.userId with
    | .ok b => pure (some b)
    | .error _ => pure (some false)

/-- The id of the search in the shared schema is recorded too, if there is one. -/
def recordSharedSearch (user : AuthenticatedUser) : Option String → Tool (Option Bool)
  | some sid => recordSearch user sid
  | none => pure none

/-- Search the schema of the user and the shared one, and merge what they give. A failure of
    the second search is left out. -/
def search (user : AuthenticatedUser) (args : Json) : Tool Json := do
  let personalReq ← built "search" (buildSearchRequest cfg.unicode user.vegapunkSchema args)
  let personal ← perf (.search personalReq)
  let shared ← perf (.search { personalReq with schema := cfg.sharedSchemaName })
  let personal ← orStatus "Search (personal)" personal
  -- only the personal search has to succeed
  let shared := shared.toOption
  let sharedSearchId := shared.map (·.searchId)
  let personalRecorded ← recordSearch user personal.searchId
  let sharedRecorded ← recordSharedSearch user sharedSearchId
  let results := mergeResults personalReq.topK personal.results
    ((shared.map (·.results)).getD [])
  let patterns := personal.similarPatterns ++ (shared.map (·.similarPatterns)).getD []
  pure (successContent (.object [("search_id", .str personal.searchId),
    ("search_ids", .object [("personal", .str personal.searchId),
      ("shared", .option .str sharedSearchId)]),
    ("ownership_recorded", .object [("personal", .option .bool personalRecorded),
      ("shared", .option .bool sharedRecorded)]),
    ("total_count", .int (i32Add personal.totalCount (optCount (·.totalCount) shared))),
    ("results", .arr (results.map (searchResultItemJson cfg))),
    ("similar_patterns", .arr (patterns.map (similarPatternJson cfg)))]))

end Search

/-! ## Schemas -/

section Handlers

variable (cfg : Config) (user : AuthenticatedUser)

/-- The fields of a schema. -/
def schemaFields (s : SchemaListItem) : Fields :=
  [("name", .str s.name), ("schema_yaml", .str s.schemaYaml), ("version", .int s.version),
    ("description", .str s.description)]

/-- The schema of the user, with the shared one if it is found. -/
def getSchema : Tool Json := do
  let personal ← perf (.getSchema (buildGetSchemaRequest user.vegapunkSchema))
  let shared ← perf (.getSchema ⟨cfg.sharedSchemaName⟩)
  let personal ← orStatus "GetSchema (personal)" personal
  pure (successContent (.object (schemaFields personal ++
    [("shared", .option (fun s => .object (schemaFields s)) shared.toOption)])))

/-- Of the schemas listed, the user's own, and the shared one. -/
def filterSchemasForUserAndShared (schemas : List SchemaListItem)
    (userSchema sharedSchema : String) : List SchemaListItem :=
  (schemas.find? fun s => s.name = userSchema).toList ++
    if userSchema ≠ sharedSchema then (schemas.find? fun s => s.name = sharedSchema).toList else []

/-- The answer that lists schemas. -/
def listSchemasContent (own : List SchemaListItem) : Json :=
  successContent (.object [("schemas", .arr (own.map fun s => .object (schemaFields s)))])

/-- List the schemas that the user may see. -/
def listSchemas : Tool Json := do
  let resp ← perf .listSchemas
  let schemas ← orStatus "ListSchemas" resp
  pure (listSchemasContent
    (filterSchemasForUserAndShared schemas user.vegapunkSchema cfg.sharedSchemaName))

/-! ## Ingestion -/

/-- Wait for the lock of the schema. -/
def acquireIngestSerializer (schema : String) : Tool Unit := do
  let l ← perf (.lockFor schema)
  perf (.lock l)

/-- A text as the canonicalizer leaves it, and whether its time is up: after the
    deadline it is not called any more. -/
def canonicalizeBefore (names : List String) (enabled : Bool) (deadline : Int) (exhausted : Bool)
    (text : String) : Tool (String × Bool) :=
  if enabled && !exhausted then do
    let now ← instant
    if deadline ≤ now then pure (text, true)
    else do
      match ← applyLlmCanonicalizeWithin (deadline - now) names text with
      | some newText => pure (newText, false)
      | none => pure (text, true)
  else pure (text, exhausted)

/-- The messages, of which the first one is the `i`-th, with their texts as the scan
    and the canonicalizer leave them, unless the scan blocks the call. -/
def rewriteMessages (catalogue : DedupCatalogue) (names : List String) (enabled : Bool)
    (deadline : Int) : ℕ → Bool → List IngestMessage → Tool (List IngestMessage)
  | _, _, [] => pure []
  | i, exhausted, msg :: msgs => do
    let text ← scanMessage cfg.unicode s!"ingest (messages[{i}])" catalogue msg.text
    let x ← canonicalizeBefore names enabled deadline exhausted text
    let rest ← rewriteMessages catalogue names enabled deadline (i + 1) x.2 msgs
    pure ({ msg with text := x.1 } :: rest)

/-- The ingestion of a request, once there is a catalogue. -/
def ingestWith (request : IngestRequest) (catalogue : DedupCatalogue) : Tool Json := do
  let enabled := shouldRunLlmCanonicalize cfg.canonicalizer request.messages.length
  let names := if enabled then catalogueCanonicalNames catalogue else []
  let now ← instant
  let messages ← rewriteMessages cfg catalogue names enabled
    (now + INGEST_LLM_TOTAL_BUDGET_SECS * 1000) 0 false request.messages
  let sinceMs ← nowMs
  let resp ← perf (.ingest { request with messages })
  let resp ← orStatus "Ingest" resp
  let awaitStatus ← awaitExtractionJobsForSchema user.vegapunkSchema sinceMs resp.ingestedCount
  pure (successContent (.object [("ingested_count", .int resp.ingestedCount),
    ("job_id", .option .str resp.jobId), ("await_status", .str awaitStatus.asStr),
    ("await_semantics", .str "lower-bound")]))

/-- Ingest messages: once the lock of the schema is taken, the catalogue is fetched, and the
    messages are scanned, canonicalized and sent. -/
def ingest (args : Json) : Tool Json := do
  let request ← built "ingest" (buildIngestRequest user.vegapunkSchema args)
  acquireIngestSerializer user.vegapunkSchema
  let catalogue ← collectDedupCatalogue cfg.unicode cfg.sharedSchemaName user.vegapunkSchema
  ingestWith cfg user request catalogue

/-- A text is canonicalized, if that is enabled. -/
def canonicalizeIf (enabled : Bool) (names : List String) (text : String) : Tool String :=
  if enabled then applyLlmCanonicalize names text else pure text

/-- The ingestion of a raw text, once there is a catalogue. -/
def ingestRawWith (request : IngestRawRequest) (catalogue : DedupCatalogue) : Tool Json := do
  let enabled := shouldRunLlmCanonicalize cfg.canonicalizer 1
  let names := if enabled then catalogueCanonicalNames catalogue else []
  let text ← scanMessage cfg.unicode "ingest_raw" catalogue request.text
  let text ← canonicalizeIf enabled names text
  let resp ← perf (.ingestRaw { request with text })
  let resp ← orStatus "IngestRaw" resp
  let recorded ← recordMany .msg resp.msgIds user.userId
  let awaitStatus ← awaitMsgIdsComplete resp.msgIds
  pure (successContent (.object [("chunk_count", .int resp.chunkCount),
    ("msg_ids", .arr (resp.msgIds.map .str)), ("await_status", .str awaitStatus.asStr),
    ("await_semantics", .str "exact"),
    ("ownership_recorded", .bool (recorded.toOption.getD false))]))

/-- Ingest a raw text, under the lock of the schema as well. -/
def ingestRaw (args : Json) : Tool Json := do
  let request ← built "ingest_raw" (buildIngestRawRequest user.vegapunkSchema args)
  acquireIngestSerializer user.vegapunkSchema
  let catalogue ← collectDedupCatalogue cfg.unicode cfg.sharedSchemaName user.vegapunkSchema
  ingestRawWith cfg user request catalogue

/-! ## Nodes -/

/-- The nodes, each id once. -/
def distinctNodes (seen : List String) : List NodeResult → List NodeResult
  | [] => []
  | n :: ns =>
    if n.nodeId ∈ seen then distinctNodes seen ns else n :: distinctNodes (n.nodeId :: seen) ns

/-- The page of the nodes of both. -/
def mergeNodes (offset : Int) (limit : Option Int) (personal shared : List NodeResult) :
    List NodeResult :=
  let nodes := (distinctNodes [] (personal ++ shared)).drop offset.toNat
  match limit with
  | some n => nodes.take n.toNat
  | none => nodes

/-- A node, as the answer has it. -/
def nodeJson (n : NodeResult) : Json :=
  .object [("node_id", .str n.nodeId), ("node_type", .str n.nodeType),
    ("attributes", .object (n.attributes.map fun a => (a.1, .str a.2)))]

/-- The request for the first nodes, as many as the page needs, up to the limit. -/
def pageRequest (r : QueryNodesRequest) : QueryNodesRequest :=
  let clientOffset := max (r.offset.getD 0) 0
  { r with
    offset := some 0
    limit := r.limit.map fun l =>
      min (min (clientOffset + max l 0) (2 ^ 31 - 1)) QUERY_NODES_LIMIT_MAX }

/-- List the nodes of the schema of the user, and then those of the shared one. -/
def queryNodes (args : Json) : Tool Json := do
  let req ← built "query_nodes" (buildQueryNodesRequest cfg.unicode user.vegapunkSchema args)
  let personalReq := pageRequest req
  let personal ← perf (.queryNodes personalReq)
  let shared ← perf (.queryNodes { personalReq with schema := cfg.sharedSchemaName })
  let personal ← orStatus "QueryNodes (personal)" personal
  let shared := shared.toOption
  let nodes := mergeNodes (max (req.offset.getD 0) 0) req.limit personal.nodes
    ((shared.map (·.nodes)).getD [])
  pure (successContent (.object [("nodes", .arr (nodes.map nodeJson)),
    ("total_count", .int (i32Add personal.totalCount (optCount (·.totalCount) shared)))]))

/-- The fields of statistics. -/
def statsFields (r : GetStatsResponse) : Fields :=
  [("node_count", .int r.nodeCount), ("edge_count", .int r.edgeCount),
    ("vector_count", .int r.vectorCount), ("community_count", .int r.communityCount)]

/-- The statistics of the schema of the user, and those of the shared one. -/
def stats (args : Json) : Tool Json := do
  let personalReq ← built "stats" (buildGetStatsRequest cfg.unicode user.vegapunkSchema args)
  let personal ← perf (.getStats personalReq)
  let shared ← perf (.getStats { personalReq with schema := some cfg.sharedSchemaName })
  let personal ← orStatus "GetStats (personal)" personal
  pure (successContent (.object (statsFields personal ++
    [("shared", .option (fun r => .object (statsFields r)) shared.toOption)])))

/-- A link of a chain, as the answer has it. -/
def chainLinkJson (l : ChainLink) : Json :=
  .object [("node_id", .str l.nodeId), ("node_type", .str l.nodeType),
    ("display_text", .str l.displayText), ("edge_type", .option .str l.edgeType),
    ("depth", .int l.depth), ("timestamp", .option .int l.timestamp)]

/-- Where the chain was found, and the chain. -/
def pickChain (personal shared : Except Status (List ChainLink)) :
    Tool (String × List ChainLink) :=
  match personal, shared with
  | .ok p, .ok s => pure (if p = [] ∧ s ≠ [] then ("shared", s) else ("personal", p))
  | .ok p, .error _ => pure ("personal", p)
  | .error e, .ok s =>
    if e.code = .notFound then pure ("shared", s)
    else answer (tonicErrorContent "GetTraceableChain (personal)" e)
  | .error e, .error _ => answer (tonicErrorContent "GetTraceableChain" e)

/-- The chain of a node in the schema of the user, or else in the shared one. -/
def getTraceableChain (args : Json) : Tool Json := do
  let personalReq ← built "get_traceable_chain"
    (buildGetTraceableChainRequest user.vegapunkSchema args)
  let personal ← perf (.getTraceableChain personalReq)
  let shared ← perf (.getTraceableChain { personalReq with schema := some cfg.sharedSchemaName })
  let found ← pickChain personal shared
  pure (successContent (.object [("found_in", .str found.1),
    ("links", .arr (found.2.map chainLinkJson))]))

/-! ## Tools by id -/

/-- An id in the arguments, trimmed. -/
def idField (obj : Fields) (field : String) : Option String :=
  (((obj.lookup field).bind Json.asString).map trimmed).filter (· ≠ "")

/-- The comment, which is a string if there is one. -/
def commentField (obj : Fields) : Except String String :=
  match obj.lookup "comment" with
  | none => .ok ""
  | some (.str s) => .ok s
  | some _ => .error "'comment' must be a string when present"

/-- The feedback that the arguments give. -/
def readFeedback (args : Json) : Except String FeedbackRequest := do
  let obj ← okOr (asObject args) "arguments must be a JSON object"
  let searchId ← okOr (idField obj "search_id") "missing or empty 'search_id'"
  let rating ← okOr (((obj.lookup "rating").bind Json.asI64).filter fun n => 1 ≤ n ∧ n ≤ 5)
    "'rating' must be an integer 1..=5"
  let comment ← commentField obj
  .ok ⟨searchId, rating, comment⟩

/-- The user owns the id, or the call ends. -/
def checkOwner (tool : String) (kind : OwnershipKind) (foreignId : String) : Tool Unit := do
  match ← verify kind foreignId user.userId with
  | .ok true => pure ()
  | .ok false => answer (ownershipDeniedContent tool)
  | .error _ => answer (internalErrorContent tool "ownership check failed")

/-- Send feedback on a search, if the user owns its id. -/
def feedback (args : Json) : Tool Json := do
  let req ← built "feedback" (readFeedback args)
  checkOwner user "feedback" .search req.searchId
  let resp ← perf (.feedback req)
  orStatus "Feedback" resp
  pure (successContent (.object [("ok", .bool true)]))

/-- The id of a message that the arguments give. -/
def readMsgId (args : Json) : Except String String := do
  let obj ← okOr (asObject args) "arguments must be a JSON object"
  okOr (idField obj "msg_id") "missing or empty 'msg_id'"

/-- A job, as the answer has it. -/
def jobJson (j : JobStatusItem) : Json :=
  .object [("job_type", .str j.jobType), ("status", .str j.status),
    ("error", .option .str j.error)]

/-- The state of a message, if the user owns its id. -/
def getJobStatus (args : Json) : Tool Json := do
  let msgId ← built "get_job_status" (readMsgId args)
  checkOwner user "get_job_status" .msg msgId
  let resp ← perf (.getJobStatus msgId)
  let resp ← orStatus "GetJobStatus" resp
  pure (successContent (.object [("msg_id", .str resp.msgId),
    ("overall_status", .str resp.overallStatus), ("jobs", .arr (resp.jobs.map jobJson))]))

/-! ## Calls -/

/-- The tools. -/
inductive ToolName
  | search | ingest | ingestRaw | queryNodes | getSchema | listSchemas | stats
  | getTraceableChain | feedback | getJobStatus
  deriving DecidableEq, Repr

/-- The tool of a name. -/
def ToolName.ofString : String → Option ToolName
  | "search" => some .search
  | "ingest" => some .ingest
  | "ingest_raw" => some .ingestRaw
  | "query_nodes" => some .queryNodes
  | "get_schema" => some .getSchema
  | "list_schemas" => some .listSchemas
  | "stats" => some .stats
  | "get_traceable_chain" => some .getTraceableChain
  | "feedback" => some .feedback
  | "get_job_status" => some .getJobStatus
  | _ => none

/-- A tool is run. -/
def runTool (args : Json) : ToolName → Tool Json
  | .search => search cfg user args
  | .getSchema => getSchema cfg user
  | .ingest => ingest cfg user args
  | .ingestRaw => ingestRaw cfg user args
  | .queryNodes => queryNodes cfg user args
  | .listSchemas => listSchemas cfg user
  | .stats => stats cfg user args
  | .getTraceableChain => getTraceableChain cfg user args
  | .feedback => feedback user args
  | .getJobStatus => getJobStatus user args

/-- The parameters of a call are not accepted. -/
def invalidParams {α : Type} (message : String) : Except Exit α :=
  .error (.reply (.rpcError (-32602) s!"Invalid params: {message}"))

/-- The tool called, and its arguments. -/
def readCall (params : Json) : Except Exit (ToolName × Json) :=
  match asObject params with
  | none => invalidParams "must be a JSON object"
  | some obj => match present obj "name" with
    | none => invalidParams "missing 'name'"
    | some v => match v.asString with
      | none => invalidParams "'name' must be a string"
      | some "" => invalidParams "'name' must not be empty"
      | some name => match ToolName.ofString name with
        | some tool => .ok (tool, (obj.lookup "arguments").getD (.obj []))
        | none => invalidParams s!"unknown tool '{name}'"

/-- A call of a tool: its parameters are read, and the tool is run. -/
def call (params : Json) : Tool Reply := do
  let x ← (Prog.ret (readCall params) : Tool (ToolName × Json))
  let content ← runTool cfg user x.2 x.1
  pure (.content content)

end Handlers

/-! ## The server -/

/-- A call of a tool by a user, or a call of a function on `tool_ownership`. -/
inductive Request
  | tool (user : AuthenticatedUser) (params : Json)
  | record (kind : OwnershipKind) (foreignId userId : String)
  | recordMany (kind : OwnershipKind) (foreignIds : List String) (userId : String)
  | verify (kind : OwnershipKind) (foreignId userId : String)

/-- A request is handled: a call of a tool, or one of the functions on the table of owners
    by itself. -/
def handle (cfg : Config) : Request → Tool Reply
  | .tool user params => call cfg user params
  | .record kind foreignId userId => do
    let r ← record kind foreignId userId
    pure (.flag r)
  | .recordMany kind foreignIds userId => do
    let r ← recordMany kind foreignIds userId
    pure (.flag r)
  | .verify kind foreignId userId => do
    let r ← verify kind foreignId userId
    pure (.flag r)

/-- What the world does: there is a new user. -/
inductive World
  | addUser (id : String)
  deriving DecidableEq, Repr

/-- What happens apart from the requests: a user is added. -/
def State.world (s : State) : World → State
  | .addUser id => { s with users := s.users ++ [id] }

/-- The server of the tools. A lock that a request holds is given back when it is done or
    dropped. -/
def server (cfg : Config) :
    Serving.Server ToolSig Request (Except Exit Reply) Input World State where
  handle := handle cfg
  perform n _ input := perform n input
  finish n _ _ s := s.release n
  world w s := some (s.world w)
  dropped n _ s := s.release n

/-- An event of a run of the tools. -/
abbrev Done : Type := Serving.Event ToolSig Request (Except Exit Reply) World

/-- The state of the tools, with the trace of what was done. -/
abbrev Conf : Type := Serving.Conf ToolSig Request (Except Exit Reply) World State

/-- The tools with the requests in flight. -/
abbrev Sys : Type := Serving.Sys ToolSig Request (Except Exit Reply) World State

/-- The server just started, with no lock yet, on a table of ownership with one row for
    each key. -/
def Starts (s : State) : Prop :=
  (s.ownership.map fun r => (r.kind, r.foreignId)).Nodup ∧ s.schemas = [] ∧ s.held = []

/-- The runs of the server, by steps that are `ok`. -/
abbrev Reached (cfg : Config) (ok : Sys → Serving.Move Request Input World → Prop) : Sys → Prop :=
  Runs.Reach (fun s => ∃ st, Starts st ∧ s = .start st) (server cfg).step ok

end LlmMemory.Vegapunk
