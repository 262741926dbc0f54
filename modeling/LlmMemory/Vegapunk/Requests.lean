import LlmMemory.Server.Json
import LlmMemory.Vegapunk.Scan

/-!
# The requests of the tools

How the arguments of a tool, a JSON value, are read into a request to the graph
server, one builder for each request. A builder takes the schema of the request
from its caller, never from the arguments. An error is its message.

The fields of the requests that are never set are left out.
-/

namespace LlmMemory.Vegapunk

/-! ## JSON -/

/-- The fields of an object. -/
abbrev Fields : Type := List (String × Json)

/-- The elements, if it is an array. -/
def asArray : Json → Option (List Json)
  | .arr vs => some vs
  | _ => none

/-- The fields, if it is an object. -/
def asObject : Json → Option Fields
  | .obj fields => some fields
  | _ => none

/-- The value of a field that is there, and is not null. -/
def present (obj : Fields) (field : String) : Option Json :=
  match obj.lookup field with
  | some .null => none
  | v => v

/-- A text without the white space at its ends. -/
def trimmed (s : String) : String := String.ofList (trim s.toList)

/-- A hexadecimal escape. -/
def unicodeEscape (c : Char) : List Char :=
  ['\\', 'u', Char.ofNat 0x7B] ++ Nat.toDigits 16 c.toNat ++ [Char.ofNat 0x7D]

/-- A character in the debug format of a string. -/
def escapeDebug (U : Unicode) (c : Char) : List Char :=
  match c.toNat with
  | 0x00 => ['\\', '0']
  | 0x09 => ['\\', 't']
  | 0x0A => ['\\', 'n']
  | 0x0D => ['\\', 'r']
  | 0x22 => ['\\', '"']
  | 0x5C => ['\\', '\\']
  | _ => if U.escapedInDebug c then unicodeEscape c else [c]

/-- A text as `{:?}` prints it. -/
def debugStr (U : Unicode) (s : String) : String :=
  String.ofList ('"' :: s.toList.flatMap (escapeDebug U) ++ ['"'])

/-- A list of texts as `{:?}` prints it. -/
def debugList (U : Unicode) (ss : List String) : String :=
  "[" ++ ", ".intercalate (ss.map (debugStr U)) ++ "]"

/-- The result of a computation that needs a value, else an error. -/
def okOr {α : Type} (x : Option α) (message : String) : Except String α :=
  match x with
  | some a => .ok a
  | none => .error message

/-! ## Fields -/

/-- The arguments of a tool are an object. -/
def requireObjectArgs (args : Json) : Except String Fields :=
  okOr (asObject args) "'arguments' must be a JSON object"

/-- A string that is required, and not blank. -/
def requireStrField (obj : Fields) (field owner : String) : Except String String := do
  let v ← okOr (present obj field) s!"missing required '{owner}.{field}'"
  let raw ← okOr v.asString s!"'{owner}.{field}' must be a string"
  if trimmed raw = "" then .error s!"'{owner}.{field}' must not be empty" else .ok (trimmed raw)

/-- A string that may be missing; a blank one is. -/
def optionalStrField (obj : Fields) (field owner : String) : Except String (Option String) :=
  match present obj field with
  | none => .ok none
  | some v => do
    let s ← okOr v.asString s!"'{owner}.{field}' must be a string"
    .ok (if trimmed s = "" then none else some (trimmed s))

/-- A string among `valid`, or the default one; `name` is what errors call it. -/
def enumField (U : Unicode) (obj : Fields) (field name default : String)
    (valid : List String) : Except String String := do
  let raw ← match present obj field with
    | none => .ok default
    | some v => okOr v.asString s!"'{name}' must be a string"
  if raw ∈ valid then .ok raw
  else .error s!"'{name}' must be one of {debugList U valid}, got {debugStr U raw}"

/-- An integer between two bounds, or the default one. -/
def boundedField (obj : Fields) (field name : String) (min max : Int) (default : Option Int) :
    Except String (Option Int) :=
  match present obj field with
  | none => .ok default
  | some v => do
    let n ← okOr v.asI64 s!"'{name}' must be an integer"
    if min ≤ n ∧ n ≤ max then .ok (some n)
    else .error s!"'{name}' must be between {min} and {max}, got {n}"

/-- An integer of 32 bits between two bounds, which the error names by its owner and its
    field. -/
def optionalBoundedI32 (obj : Fields) (field : String) (min max : Int) (default : Option Int)
    (owner : String) : Except String (Option Int) :=
  boundedField obj field s!"{owner}.{field}" min max default

/-! ## Search -/

/-- The least limit of a search. -/
def SEARCH_LIMIT_MIN : Int := 1
/-- The greatest limit of a search. -/
def SEARCH_LIMIT_MAX : Int := 100
/-- The limit of a search that gives none. -/
def SEARCH_LIMIT_DEFAULT : Int := 10
/-- The modes of a search. -/
def SEARCH_VALID_MODES : List String := ["local", "global", "hybrid"]
/-- The mode of a search that gives none. -/
def SEARCH_MODE_DEFAULT : String := "hybrid"

/-- The request of a search. -/
structure SearchRequest where
  text : String
  topK : Option Int
  mode : Option String
  schema : String
  deriving DecidableEq, Repr

section Builders

variable (U : Unicode) (userSchema : String)

/-- The request that the arguments of `search` give, in the schema of the user. -/
def buildSearchRequest (args : Json) : Except String SearchRequest := do
  let obj ← requireObjectArgs args
  let text ← okOr ((((obj.lookup "query").bind Json.asString).map trimmed).filter (· ≠ ""))
    "missing or empty required argument: 'query'"
  let mode ← enumField U obj "mode" "mode" SEARCH_MODE_DEFAULT SEARCH_VALID_MODES
  let topK ← boundedField obj "limit" "limit" SEARCH_LIMIT_MIN SEARCH_LIMIT_MAX
    (some SEARCH_LIMIT_DEFAULT)
  .ok ⟨text, topK, some mode, userSchema⟩

/-! ## Schemas -/

/-- The request for a schema. -/
structure GetSchemaRequest where
  name : String
  deriving DecidableEq, Repr

/-- The request for the schema of the user. -/
def buildGetSchemaRequest : GetSchemaRequest := ⟨userSchema⟩

/-! ## Ingestion -/

/-- What is known of a message. -/
structure MessageMetadata where
  sourceType : String
  author : String
  authorId : Option String
  channel : String
  channelId : Option String
  threadId : Option String
  timestamp : String
  deriving DecidableEq, Repr

/-- A message to be ingested. -/
structure IngestMessage where
  id : Option String
  text : String
  metadata : MessageMetadata
  deriving DecidableEq, Repr

/-- The request to ingest messages. -/
structure IngestRequest where
  messages : List IngestMessage
  schema : String
  deriving DecidableEq, Repr

/-- The metadata of a message, with the path of its fields in the errors. -/
def buildMetadata (obj : Fields) (owner : String) : Except String MessageMetadata := do
  let sourceType ← requireStrField obj "source_type" owner
  let author ← requireStrField obj "author" owner
  let authorId ← optionalStrField obj "author_id" owner
  let channel ← requireStrField obj "channel" owner
  let channelId ← optionalStrField obj "channel_id" owner
  let threadId ← optionalStrField obj "thread_id" owner
  let timestamp ← requireStrField obj "timestamp" owner
  .ok ⟨sourceType, author, authorId, channel, channelId, threadId, timestamp⟩

/-- The `i`-th message. -/
def buildMessage (i : ℕ) (item : Json) : Except String IngestMessage := do
  let owner := s!"messages[{i}]"
  let m ← okOr (asObject item) s!"'{owner}' must be an object"
  let id ← optionalStrField m "id" owner
  let text ← requireStrField m "text" owner
  let v ← okOr (m.lookup "metadata") s!"missing required '{owner}.metadata'"
  let obj ← okOr (asObject v) s!"'{owner}.metadata' must be an object"
  let metadata ← buildMetadata obj s!"{owner}.metadata"
  .ok ⟨id, text, metadata⟩

/-- The messages, of which the first one is the `i`-th. -/
def buildMessages (i : ℕ) : List Json → Except String (List IngestMessage)
  | [] => .ok []
  | item :: items => do
    let m ← buildMessage i item
    let ms ← buildMessages (i + 1) items
    .ok (m :: ms)

/-- The request that the arguments of `ingest` give: there is a message, and all of them are
    read. -/
def buildIngestRequest (args : Json) : Except String IngestRequest := do
  let obj ← requireObjectArgs args
  let v ← okOr (obj.lookup "messages") "missing required argument: 'messages'"
  let items ← okOr (asArray v) "'messages' must be an array"
  if items = [] then .error "'messages' must contain at least one item"
  else do
    let messages ← buildMessages 0 items
    .ok ⟨messages, userSchema⟩

/-- What is known of a raw text. -/
structure IngestRawMetadata where
  sourceType : String
  author : Option String
  channel : Option String
  timestamp : Option String
  deriving DecidableEq, Repr

/-- The request to ingest a raw text. -/
structure IngestRawRequest where
  text : String
  metadata : IngestRawMetadata
  schema : String
  deriving DecidableEq, Repr

/-- The request that the arguments of `ingest_raw` give. -/
def buildIngestRawRequest (args : Json) : Except String IngestRawRequest := do
  let obj ← requireObjectArgs args
  let text ← requireStrField obj "text" "arguments"
  let v ← okOr (obj.lookup "metadata") "missing required argument: 'metadata'"
  let metadata ← okOr (asObject v) "'metadata' must be an object"
  let sourceType ← requireStrField metadata "source_type" "metadata"
  let author ← optionalStrField metadata "author" "metadata"
  let channel ← optionalStrField metadata "channel" "metadata"
  let timestamp ← optionalStrField metadata "timestamp" "metadata"
  .ok ⟨text, ⟨sourceType, author, channel, timestamp⟩, userSchema⟩

/-! ## Nodes -/

/-- The least limit of a list of nodes. -/
def QUERY_NODES_LIMIT_MIN : Int := 1
/-- The greatest limit of a list of nodes. -/
def QUERY_NODES_LIMIT_MAX : Int := 1000
/-- The limit of a list of nodes that gives none. -/
def QUERY_NODES_LIMIT_DEFAULT : Int := 50
/-- The orders in which nodes are sorted. -/
def QUERY_NODES_VALID_SORT_ORDERS : List String := ["asc", "desc"]
/-- The order of a list of nodes that gives none. -/
def QUERY_NODES_SORT_ORDER_DEFAULT : String := "desc"
/-- The comparisons of a filter. -/
def ATTRIBUTE_FILTER_VALID_OPS : List String := ["eq", "gt", "gte", "lt", "lte"]

/-- A filter: an attribute, how it is compared, and with what. -/
structure AttributeFilter where
  key : String
  op : String
  value : String
  deriving DecidableEq, Repr

/-- A value may be empty, or blank. -/
def buildAttributeFilter (item : Json) (owner : String) : Except String AttributeFilter := do
  let m ← okOr (asObject item) s!"'{owner}' must be an object"
  let key ← requireStrField m "key" owner
  let op ← requireStrField m "op" owner
  if op ∈ ATTRIBUTE_FILTER_VALID_OPS then do
    let v ← okOr (present m "value") s!"missing required '{owner}.value'"
    let value ← okOr v.asString s!"'{owner}.value' must be a string"
    .ok ⟨key, op, value⟩
  else .error (s!"'{owner}.op' must be one of {debugList U ATTRIBUTE_FILTER_VALID_OPS}" ++
    s!", got {debugStr U op}")

/-- The filters of an array, from the `i`-th on. -/
def buildFilterList (owner : String) (i : ℕ) : List Json → Except String (List AttributeFilter)
  | [] => .ok []
  | item :: items => do
    let f ← buildAttributeFilter U item s!"{owner}[{i}]"
    let fs ← buildFilterList owner (i + 1) items
    .ok (f :: fs)

/-- The filters of the arguments, if there are any. -/
def buildAttributeFiltersFrom (obj : Fields) (owner : String) :
    Except String (List AttributeFilter) :=
  match present obj "filters" with
  | none => .ok []
  | some v => do
    let items ← okOr (asArray v) s!"'{owner}.filters' must be an array"
    buildFilterList U s!"{owner}.filters" 0 items

/-- The request for a list of nodes. -/
structure QueryNodesRequest where
  schema : String
  nodeType : String
  filters : List AttributeFilter
  sortBy : Option String
  sortOrder : Option String
  limit : Option Int
  offset : Option Int
  deriving DecidableEq, Repr

/-- The request that the arguments of `query_nodes` give. -/
def buildQueryNodesRequest (args : Json) : Except String QueryNodesRequest := do
  let obj ← requireObjectArgs args
  let nodeType ← requireStrField obj "node_type" "arguments"
  let filters ← buildAttributeFiltersFrom U obj "arguments"
  let sortBy ← optionalStrField obj "sort_by" "arguments"
  let sortOrder ← enumField U obj "sort_order" "arguments.sort_order"
    QUERY_NODES_SORT_ORDER_DEFAULT QUERY_NODES_VALID_SORT_ORDERS
  let limit ← optionalBoundedI32 obj "limit" QUERY_NODES_LIMIT_MIN QUERY_NODES_LIMIT_MAX
    (some QUERY_NODES_LIMIT_DEFAULT) "arguments"
  let offset ← optionalBoundedI32 obj "offset" 0 (2 ^ 31 - 1) (some 0) "arguments"
  .ok ⟨userSchema, nodeType, filters, sortBy, some sortOrder, limit, offset⟩

/-- The request for statistics. -/
structure GetStatsRequest where
  schema : Option String
  nodeType : Option String
  filters : List AttributeFilter
  deriving DecidableEq, Repr

/-- The request that the arguments of `stats` give. -/
def buildGetStatsRequest (args : Json) : Except String GetStatsRequest := do
  let obj ← requireObjectArgs args
  let nodeType ← optionalStrField obj "node_type" "arguments"
  let filters ← buildAttributeFiltersFrom U obj "arguments"
  .ok ⟨some userSchema, nodeType, filters⟩

/-- The least depth of a chain. -/
def TRACEABLE_CHAIN_MAX_DEPTH_MIN : Int := 1
/-- The greatest depth of a chain. -/
def TRACEABLE_CHAIN_MAX_DEPTH_MAX : Int := 10
/-- The depth of a chain that gives none. -/
def TRACEABLE_CHAIN_MAX_DEPTH_DEFAULT : Int := 5

/-- The request for a chain of provenance. -/
structure GetTraceableChainRequest where
  nodeId : String
  schema : Option String
  maxDepth : Option Int
  deriving DecidableEq, Repr

/-- The request that the arguments of `get_traceable_chain` give. -/
def buildGetTraceableChainRequest (args : Json) : Except String GetTraceableChainRequest := do
  let obj ← requireObjectArgs args
  let nodeId ← requireStrField obj "node_id" "arguments"
  let maxDepth ← optionalBoundedI32 obj "max_depth" TRACEABLE_CHAIN_MAX_DEPTH_MIN
    TRACEABLE_CHAIN_MAX_DEPTH_MAX (some TRACEABLE_CHAIN_MAX_DEPTH_DEFAULT) "arguments"
  .ok ⟨nodeId, some userSchema, maxDepth⟩

end Builders

end LlmMemory.Vegapunk
