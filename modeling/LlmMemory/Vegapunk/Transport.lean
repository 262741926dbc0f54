import LlmMemory.JsonRpc
import LlmMemory.Server.Transport
import LlmMemory.Vegapunk.Handlers

/-!
# The transport of the vegapunk MCP server

How the MCP server over vegapunk dispatches a request (`dispatchOne`): its tools
are listed (`list`), and called (`call`). What a tool does to the state of the
server is left open.

The answers of this server and of the other one correspond to the entries of a
body (`transports_correspond`). Entries are also read from arrays, by the
positions of their fields: such an entry is a request (`arrays_answered`).
-/

namespace LlmMemory.Vegapunk.Transport

open JsonRpc

/-- The version of the protocol. -/
def MCP_PROTOCOL_VERSION : String := "2025-03-26"
/-- The name of the server. -/
def SERVER_NAME : String := "vegapunk-memory-server"
/-- The version of the server. -/
def SERVER_VERSION : String := "0.0.0"

/-! ## The list of the tools -/

/-- A string with a description. -/
def describedSchema (description : String) : Json :=
  .object [("type", .str "string"), ("description", .str description)]

/-- The schema of a text that is not blank. -/
def textSchema : Json :=
  .object [("type", .str "string"), ("minLength", .int 1), ("pattern", .str "\\S")]

/-- A string that is not blank, with a description. -/
def describedTextSchema (description : String) : Json :=
  .object [("type", .str "string"), ("minLength", .int 1), ("pattern", .str "\\S"),
    ("description", .str description)]

/-- A string of an enumeration, with its default. -/
def defaultEnumSchema (values : List String) (default : String) : Json :=
  .object [("type", .str "string"), ("enum", .arr (values.map .str)), ("default", .str default)]

/-- An integer with its bounds and its default. -/
def integerSchema (minimum maximum default : Int) : Json :=
  .object [("type", .str "integer"), ("minimum", .int minimum), ("maximum", .int maximum),
    ("default", .int default)]

/-- An array. -/
def arraySchema (items : Json) : Json := .object [("type", .str "array"), ("items", items)]

/-- The filters of a query. -/
def filtersSchema : Json :=
  arraySchema (objectSchema [("key", textSchema), ("op", enumSchema ATTRIBUTE_FILTER_VALID_OPS),
    ("value", stringSchema)] ["key", "op", "value"])

/-- A message of an ingestion. -/
def toolMessageSchema : Json :=
  objectSchema [
    ("id", describedSchema
      "Optional client-supplied msg id. Server generates one if omitted."),
    ("text", describedTextSchema
      "Message body. Must contain at least one non-whitespace character."),
    ("metadata", objectSchema [("source_type", textSchema), ("author", textSchema),
      ("author_id", stringSchema), ("channel", textSchema), ("channel_id", stringSchema),
      ("thread_id", stringSchema),
      ("timestamp", describedTextSchema "RFC3339 timestamp, e.g. 2026-06-02T10:00:00+09:00.")]
      ["source_type", "author", "channel", "timestamp"])]
    ["text", "metadata"]

/-- What a tool does, for clients. -/
def toolDescription : ToolName → String
  | .search => "Search the knowledge graph for relevant information (vegapunk Search RPC, " ++
      "local/global/hybrid mode)."
  | .ingest => "Ingest structured messages into the knowledge graph (vegapunk Ingest RPC). Each " ++
      "message is treated as one provenance unit (e.g. a Slack post or commit). For long-form " ++
      "text without per-utterance structure, prefer `ingest_raw`."
  | .ingestRaw => "Ingest a single block of raw text into the knowledge graph; vegapunk chunks " ++
      "it and returns one msg_id per chunk (vegapunk IngestRaw RPC)."
  | .queryNodes => "List nodes by type with optional attribute filters (vegapunk QueryNodes " ++
      "RPC). Filters are AND-combined."
  | .getSchema => "Get the active schema definition for the authenticated user (vegapunk " ++
      "GetSchema RPC). The schema name is injected server-side from the user's tenant, so this " ++
      "tool takes no arguments."
  | .listSchemas => "List schemas visible to the authenticated user (vegapunk ListSchemas RPC, " ++
      "filtered server-side to the user's tenant — other tenants' schemas are never returned)."
  | .stats => "Get knowledge graph statistics for the authenticated user's schema (vegapunk " ++
      "GetStats RPC). Optional node_type and filters narrow node_count to a subset."
  | .getTraceableChain => "Walk the provenance chain from a node back to its source within the " ++
      "authenticated user's schema (vegapunk GetTraceableChain RPC)."
  | .feedback => "Send relevance feedback for a prior `search` call (vegapunk Feedback RPC). " ++
      "`search_id` must come from a search this user made; cross-tenant ids are rejected."
  | .getJobStatus => "Look up the status of an ingest job by `msg_id` (vegapunk GetJobStatus " ++
      "RPC). `msg_id` must come from an `ingest_raw` this user made; cross-tenant ids are " ++
      "rejected."

/-- The input schema of a tool, as it is listed. -/
def toolInputSchema : ToolName → Json
  | .search => objectSchema [
      ("query", describedTextSchema
        "Search query. Must contain at least one non-whitespace character."),
      ("mode", defaultEnumSchema SEARCH_VALID_MODES SEARCH_MODE_DEFAULT),
      ("limit", integerSchema SEARCH_LIMIT_MIN SEARCH_LIMIT_MAX SEARCH_LIMIT_DEFAULT)] ["query"]
  | .ingest => objectSchema [("messages", .object [("type", .str "array"), ("minItems", .int 1),
      ("items", toolMessageSchema)])] ["messages"]
  | .ingestRaw => objectSchema [
      ("text", describedTextSchema
        "Raw text. Must contain at least one non-whitespace character."),
      ("metadata", objectSchema [("source_type", textSchema), ("author", stringSchema),
        ("channel", stringSchema),
        ("timestamp", describedTextSchema ("RFC3339 timestamp. Server uses current time if " ++
          "omitted; whitespace-only is treated as omitted."))] ["source_type"])]
      ["text", "metadata"]
  | .queryNodes => objectSchema [
      ("node_type", describedTextSchema
        "Node type to list (e.g. \"Message\", \"Person\", \"Decision\")."),
      ("filters", filtersSchema), ("sort_by", textSchema),
      ("sort_order", defaultEnumSchema QUERY_NODES_VALID_SORT_ORDERS
        QUERY_NODES_SORT_ORDER_DEFAULT),
      ("limit", integerSchema QUERY_NODES_LIMIT_MIN QUERY_NODES_LIMIT_MAX
        QUERY_NODES_LIMIT_DEFAULT),
      ("offset", .object [("type", .str "integer"), ("minimum", .int 0), ("default", .int 0)])]
      ["node_type"]
  | .getSchema => optionalSchema []
  | .listSchemas => optionalSchema []
  | .stats => optionalSchema [("node_type", textSchema), ("filters", filtersSchema)]
  | .getTraceableChain => objectSchema [("node_id", textSchema),
      ("max_depth", integerSchema TRACEABLE_CHAIN_MAX_DEPTH_MIN TRACEABLE_CHAIN_MAX_DEPTH_MAX
        TRACEABLE_CHAIN_MAX_DEPTH_DEFAULT)] ["node_id"]
  | .feedback => objectSchema [
      ("search_id", describedTextSchema "Identifier returned by a previous `search` call."),
      ("rating", .object [("type", .str "integer"), ("minimum", .int 1), ("maximum", .int 5),
        ("description", .str "1-5 scale (1=lowest, 5=highest).")]),
      ("comment", describedSchema "Optional free-text comment.")] ["search_id", "rating"]
  | .getJobStatus => objectSchema [
      ("msg_id", describedTextSchema "msg_id returned by a previous `ingest_raw` call.")]
      ["msg_id"]

/-- The tools, as they are listed. -/
def TOOL_NAMES : List String := ["search", "ingest", "ingest_raw", "query_nodes", "get_schema",
  "list_schemas", "stats", "get_traceable_chain", "feedback", "get_job_status"]

/-- A tool, as it is listed. -/
def toolDescriptor (name : String) : Json :=
  let description := match ToolName.ofString name with
    | some tool => toolDescription tool
    | none => "(unknown tool)"
  let inputSchema := match ToolName.ofString name with
    | some tool => toolInputSchema tool
    | none => optionalSchema []
  .object [("name", .str name), ("description", .str description), ("inputSchema", inputSchema)]

/-- The list of the tools. -/
def list (id : Option Json) : JsonRpc.JsonRpcResponse :=
  .success id (.object [("tools", .arr (TOOL_NAMES.map toolDescriptor))])

/-- The tools that are listed are those that can be called. -/
theorem mem_toolNames_iff {name : String} :
    name ∈ TOOL_NAMES ↔ (ToolName.ofString name).isSome = true := by
  unfold ToolName.ofString
  split
  all_goals simp_all [TOOL_NAMES]

/-! ## Calls -/

variable {σ : Type} (run : ToolName → Json → σ → Json × σ)

/-- Run the tool that is called, if there is one. -/
def call (id : Option Json) (params : Json) (s : σ) : JsonRpc.JsonRpcResponse × σ :=
  match asObject params with
  | none => (.failure id (-32602) "Invalid params: must be a JSON object", s)
  | some obj => match present obj "name" with
    | none => (.failure id (-32602) "Invalid params: missing 'name'", s)
    | some v => match v.asString with
      | none => (.failure id (-32602) "Invalid params: 'name' must be a string", s)
      | some "" => (.failure id (-32602) "Invalid params: 'name' must not be empty", s)
      | some name =>
        let args := (obj.lookup "arguments").getD (.obj [])
        match ToolName.ofString name with
        | some tool =>
          let (content, s) := run tool args s
          (.success id content, s)
        | none => (.failure id (-32602) s!"Invalid params: unknown tool '{name}'", s)

/-- The response of the method of a request, which runs. -/
def respond (req : JsonRpcRequest) (s : σ) : JsonRpc.JsonRpcResponse × σ :=
  match req.method with
  | "initialize" => (.success req.id (.object [("protocolVersion", .str MCP_PROTOCOL_VERSION),
      ("capabilities", .object [("tools", .object [("listChanged", .bool false)])]),
      ("serverInfo", .object [("name", .str SERVER_NAME), ("version", .str SERVER_VERSION)])]), s)
  | "ping" => (.success req.id (.object []), s)
  | "tools/list" => (list req.id, s)
  | "tools/call" => call run req.id req.params s
  | _ => (.failure req.id (-32601) "Method not found", s)

/-- The outcome of a request. -/
def dispatchOne (req : JsonRpcRequest) (s : σ) : Outcome × σ :=
  let isNotification := req.id.isNone
  if req.method.startsWith "notifications/" then
    -- with an id it is not a notification, and must be answered
    if ¬ isNotification then
      (.response (.failure req.id (-32600) ("Invalid Request: '" ++ req.method ++
        "' must be sent as a Notification (no id)")), s)
    else (.notification, s)
  else
    let (response, s) := respond run req s
    -- without an id, the method has run, but is not answered
    if isNotification then (.notification, s) else (.response response, s)

/-- The reply to a body. -/
def handle (texts : Texts) : Option Json → σ → JsonRpc.Reply × σ :=
  JsonRpc.handle texts (dispatchOne run)

variable {run} {id : Option Json} {params : Json} {s : σ}

/-- A call runs the tool that is read from its parameters, with the arguments that are;
    parameters that name no tool are an error. -/
theorem call_of_readCall (run : ToolName → Json → σ → Json × σ) (id : Option Json)
    (params : Json) (s : σ) :
    (∃ tool args, readCall params = .ok (tool, args) ∧
      call run id params s = (.success id (run tool args s).1, (run tool args s).2)) ∨
    ∃ code message, readCall params = .error (.reply (.rpcError code message)) ∧
      call run id params s = (.failure id code message, s) := by
  unfold readCall call
  cases asObject params with
  | none => exact .inr ⟨_, _, rfl, rfl⟩
  | some obj =>
    dsimp only
    cases present obj "name" with
    | none => exact .inr ⟨_, _, rfl, rfl⟩
    | some v =>
      dsimp only
      cases v.asString with
      | none => exact .inr ⟨_, _, rfl, rfl⟩
      | some name =>
        by_cases hname : name = ""
        · subst hname
          exact .inr ⟨_, _, rfl, rfl⟩
        · simp only
          cases ToolName.ofString name with
          | none => exact .inr ⟨_, _, rfl, rfl⟩
          | some tool => exact .inl ⟨_, _, rfl, rfl⟩

/-- A call is answered under its id. -/
theorem responds_call : Responds id (call run id params s).1 := by
  rcases call_of_readCall run id params s with ⟨tool, args, -, hcall⟩ | ⟨code, message, -, hcall⟩
  · rw [hcall]
    exact .success _
  · rw [hcall]
    exact .failure _ _

theorem responds_respond (run : ToolName → Json → σ → Json × σ) (req : JsonRpcRequest) (s : σ) :
    Responds req.id (respond run req s).1 := by
  unfold respond
  split
  · exact .success _
  · exact .success _
  · exact .success _
  · exact responds_call
  · exact .failure _ _

/-- The server answers requests, and no notifications. -/
theorem answering (run : ToolName → Json → σ → Json × σ) : Answering (dispatchOne run) := by
  constructor
  · intro req s hid
    unfold dispatchOne
    rw [hid]
    split <;> rfl
  · intro req s id hid
    have hresponds := responds_respond run req s
    rw [hid] at hresponds
    unfold dispatchOne
    rw [hid]
    split
    · exact ⟨_, rfl, .failure _ _⟩
    · exact ⟨_, rfl, hresponds⟩

/-! ## Both transports -/

/-- In both servers, whatever the tools do, the answers correspond to the entries of a
    body: requests, from objects or from arrays, are answered with their ids if they
    have one, and everything else as an invalid request. -/
theorem transports_correspond {σ τ : Type} (texts : Texts) (impl : LlmMemory.Transport.Tools σ)
    (userId : String) (run : ToolName → Json → τ → Json × τ) :
    Corresponds Accepted (LlmMemory.Transport.handle impl userId texts) ∧
      Corresponds Accepted (handle run texts) :=
  ⟨handle_corresponds (LlmMemory.Transport.answering impl userId),
    handle_corresponds (answering run)⟩

/-- Texts of the library. -/
def sampleTexts : Texts := ⟨fun _ => "invalid type", fun s => s⟩

/-- Tools that do nothing. -/
def idleTools : LlmMemory.Transport.Tools Unit := ⟨fun _ => 0, fun _ _ s => (.ok .null, s)⟩

/-- An array is not an object that is a request, but answered with a result. -/
theorem arrays_answered :
    (∀ id, ¬WellFormed positionalPing id) ∧
    (LlmMemory.Transport.handle idleTools "u1" sampleTexts (some (.arr [positionalPing]))
        ⟨RateLimiter.new, ()⟩).1 =
      .json (.arr [(JsonRpcResponse.success (some (.int 1)) (.object [])).toValue]) ∧
    (handle (fun _ _ s => (.null, s)) sampleTexts (some (.arr [positionalPing])) ()).1 =
      .json (.arr [(JsonRpcResponse.success (some (.int 1)) (.object [])).toValue]) ∧
    ¬Corresponds WellFormed (LlmMemory.Transport.handle idleTools "u1" sampleTexts) ∧
    ¬Corresponds WellFormed (handle (fun _ _ (s : Unit) => (.null, s)) sampleTexts) := by
  refine ⟨?_, rfl, ?_, ?_, ?_⟩
  · rintro id ⟨fields, hobj, -⟩
    cases hobj
  · rfl
  · exact not_corresponds_wellFormed (LlmMemory.Transport.answering _ _) ⟨RateLimiter.new, ()⟩
  · exact not_corresponds_wellFormed (answering _) ()

end LlmMemory.Vegapunk.Transport
