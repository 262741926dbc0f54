import LlmMemory.JsonRpc
import LlmMemory.Server.RateLimiter

/-!
# The transport of the MCP server

How the MCP server dispatches a request (`dispatchOne`): its tools are listed
(`list`), and called (`call`), unless the rate limiter refuses. What a tool does
to the state of the server is left open (`Tools`).
-/

namespace LlmMemory.Transport

open JsonRpc RateLimiter TokenBucket

/-- The version of the protocol that is served. -/
def MCP_PROTOCOL_VERSION : String := "2025-03-26"
/-- The name of the server. -/
def SERVER_NAME : String := "llm-memory-server"
/-- The version of the server. -/
def SERVER_VERSION : String := "0.0.0"

/-! ## The list of the tools -/

/-- What is listed of a tool. -/
def toolMeta (name description : String) (inputSchema : Json) : Json :=
  .object [("name", .str name), ("description", .str description), ("inputSchema", inputSchema)]

/-- The tools that are listed. -/
def tools : List Json := [
  toolMeta "raw_append" "Append a personal raw"
    (objectSchema [("title", stringSchema), ("content", stringSchema), ("source", stringSchema),
      ("tags", .object [("type", .str "array"), ("items", stringSchema)])]
      ["title", "content", "source"]),
  toolMeta "raw_read" "Read a single raw" (objectSchema [("id", stringSchema)] ["id"]),
  toolMeta "raw_search" "Search raws via FTS5"
    (objectSchema [("query", stringSchema), ("scope", enumSchema ["all", "personal", "shared"]),
      ("limit", .object [("type", .str "integer"), ("minimum", .int 1), ("maximum", .int 100)])]
      ["query"]),
  toolMeta "wiki_read" "Read concept wiki across personal+shared"
    (objectSchema [("concept", stringSchema),
      ("scope", enumSchema ["all", "personal", "shared"])] ["concept"]),
  toolMeta "wiki_list" "List concepts"
    (optionalSchema [("scope", enumSchema ["all", "personal", "shared"])]),
  toolMeta "wiki_rebuild" "Manually trigger rebuild" (optionalSchema [("concept", stringSchema)]),
  toolMeta "schema_read" "Read schema" (.object [("type", .str "object"),
    ("properties", .object [("scope", enumSchema ["personal", "shared"]),
      ("shared_memory_id", stringSchema)]),
    ("required", .arr [.str "scope"]),
    -- `shared_memory_id` is required only for the scope "shared"
    ("oneOf", .arr [
      .object [("properties", .object [("scope", .object [("const", .str "personal")])])],
      .object [("properties", .object [("scope", .object [("const", .str "shared")])]),
        ("required", .arr [.str "shared_memory_id"])]])]),
  toolMeta "schema_update" "Update personal schema"
    (objectSchema [("content", stringSchema)] ["content"]),
  toolMeta "export" "Export personal data" (optionalSchema [("cursor", stringSchema)])]

/-- What is listed of a tool has its name. -/
theorem name_toolMeta (name description : String) (inputSchema : Json) :
    (toolMeta name description inputSchema).get "name" = some (.str name) := by
  simp [toolMeta, Json.object, List.orderedInsert, Json.get, List.lookup_cons]

/-- The tools that are listed are those that are known. -/
theorem isKnownTool_iff {name : String} :
    isKnownTool name = true ↔ ∃ tool ∈ tools, tool.get "name" = some (.str name) := by
  have hnames : tools.map (·.get "name") = ["raw_append", "raw_read", "raw_search", "wiki_read",
      "wiki_list", "wiki_rebuild", "schema_read", "schema_update", "export"].map
        fun name => some (.str name) := by
    simp only [tools, List.map_cons, List.map_nil, name_toolMeta]
  have hinj : Function.Injective fun name => some (Json.str name) := fun a b h => by
    simpa using h
  rw [isKnownTool, decide_eq_true_eq, ← List.mem_map_of_injective hinj, ← hnames, List.mem_map]

/-- The answer to a request for the list of the tools. -/
def list (id : Option Json) : JsonRpc.JsonRpcResponse :=
  .success id (.object [("tools", .arr tools)])

/-! ## Calls -/

/-- What the tools do for a user: the result of each, and the state that it leaves. -/
structure Tools (σ : Type) where
  now : σ → ℚ
  run : String → Json → σ → Except ToolError Json × σ

/-- The state of the server, with the buckets of the rate limiter. -/
structure State (σ : Type) where
  buckets : Buckets ℚ (String × String)
  rest : σ

variable {σ : Type} (impl : Tools σ) (userId : String)

/-- The answer to a call of a tool: it is refused if the limit of the user is reached, or if
    the tool is not known, or else the tool runs. -/
def call (id : Option Json) (params : Json) (s : State σ) : JsonRpc.JsonRpcResponse × State σ :=
  let name := ((params.get "name").bind Json.asString).getD ""
  let args := (params.get "arguments").getD (.object [])
  match RateLimiter.call ⟨impl.now s.rest, userId, name⟩ s.buckets with
  | (.unknownTool code message, buckets) => (.failure id code message, ⟨buckets, s.rest⟩)
  | (.rateLimited result, buckets) => (.success id result, ⟨buckets, s.rest⟩)
  | (.admitted, buckets) =>
    let (result, rest) := impl.run name args s.rest
    let callResult := match result with
      | .ok v => callToolResultOk v
      | .error _ => callToolResultErr s!"tool '{name}' failed"
    (.success id callResult, ⟨buckets, rest⟩)

/-- The response of the method of a request. -/
def respond (req : JsonRpcRequest) (s : State σ) : JsonRpc.JsonRpcResponse × State σ :=
  match req.method with
  | "initialize" => (.success req.id (.object [("protocolVersion", .str MCP_PROTOCOL_VERSION),
      ("capabilities", .object [("tools", .object [("listChanged", .bool false)])]),
      ("serverInfo", .object [("name", .str SERVER_NAME), ("version", .str SERVER_VERSION)])]), s)
  | "ping" => (.success req.id (.object []), s)
  | "tools/list" => (list req.id, s)
  | "tools/call" => call impl userId req.id req.params s
  | _ => (.failure req.id (-32601) "Method not found", s)

/-- The answer to an entry that is a request. Without an id, it is a notification, and does
    not run. -/
def dispatchOne (req : JsonRpcRequest) (s : State σ) : Outcome × State σ :=
  if req.id.isNone then (.notification, s)
  else
    let (response, s) := respond impl userId req s
    (.response response, s)

/-- The answer to a body. -/
def handle (texts : Texts) : Option Json → State σ → Reply × State σ :=
  JsonRpc.handle texts (dispatchOne impl userId)

variable {impl userId} {id : Option Json} {params : Json} {s : State σ}

/-- A call of a tool answers its request. -/
theorem responds_call : Responds id (call impl userId id params s).1 := by
  unfold call
  dsimp only
  split
  · exact .failure _ _
  · exact .success _
  · exact .success _

theorem responds_respond (impl : Tools σ) (userId : String) (req : JsonRpcRequest) (s : State σ) :
    Responds req.id (respond impl userId req s).1 := by
  unfold respond
  split
  · exact .success _
  · exact .success _
  · exact .success _
  · exact responds_call
  · exact .failure _ _

theorem answering (impl : Tools σ) (userId : String) : Answering (dispatchOne impl userId) := by
  constructor
  · intro req s hid
    unfold dispatchOne
    rw [hid]
    rfl
  · intro req s id hid
    have hresponds := responds_respond impl userId req s
    rw [hid] at hresponds
    unfold dispatchOne
    rw [hid]
    exact ⟨_, rfl, hresponds⟩

end LlmMemory.Transport
