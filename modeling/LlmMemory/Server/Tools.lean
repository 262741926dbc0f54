import LlmMemory.Server.Json
import LlmMemory.Storage

/-!
# The read tools

The tools that only read the database, one namespace for each of their modules
(`RawRead`, `RawSearch`, `WikiList`, `WikiRead`, `SchemaRead`, `Export`), and the
response to their calls (`ReadTool.call`). The rate limiter, which is not part
of the database, either admits a call or not.
-/

namespace LlmMemory

/-- Why a tool fails: its arguments could not be read, or with a message. -/
inductive ToolError
  | args
  | message (text : String)
  deriving DecidableEq, Repr

/-- Why a query fails is not part of any answer. -/
def storageError : ToolError := .message "storage"

/-- The arguments read, if they could be. -/
def readArgs {α : Type} (a : Option α) : Except ToolError α :=
  match a with
  | some a => .ok a
  | none => .error .args

/-- The argument `scope`: none for all scopes. -/
def parseScopeArg : Option String → Except ToolError (Option Scope)
  | none => .ok none
  | some "all" => .ok none
  | some "personal" => .ok (some .personal)
  | some "shared" => .ok (some .shared)
  | some other => .error (.message s!"invalid scope: {other}")

/-- Whether a scope is asked for. -/
def wants (asked : Option Scope) (scope : Scope) : Bool := asked = none ∨ asked = some scope

/-- A raw, as the answers have it. -/
def Raw.toJson (r : Raw) : Json :=
  .object [("id", .str r.id), ("scope", .str r.scope.asStr), ("owner_id", .str r.ownerId),
    ("title", .str r.title), ("content", .str r.content), ("source", .str r.source),
    ("tags", .option .str r.tags), ("created_by", .option .str r.createdBy),
    ("created_at", .int r.createdAt)]

/-- The column `source_refs` holds the text of the list. -/
def Wiki.toJson (w : Wiki) : Json :=
  .object [("scope", .str w.scope.asStr), ("owner_id", .str w.ownerId), ("concept", .str w.concept),
    ("content", .str w.content), ("source_refs", .str (Json.arr (w.sourceRefs.map .str)).toText),
    ("last_rebuilt_at", .int w.lastRebuiltAt)]

namespace RawRead

/-- The arguments of `raw_read` are read. -/
def readId (args : Json) : Option String :=
  if args.fits 1 then args.field "id" 0 Json.asString none none else none

/-- A raw of an id, if the user may see it. -/
def call (db : Db) (userId : String) (args : Json) : Except ToolError Json := do
  let id ← readArgs (readId args)
  match Raws.get db id with
  | none => .error (.message "not found")
  | some raw =>
    if raw.scope = .personal ∧ raw.ownerId ≠ userId then .error (.message "not found")
    else .ok raw.toJson

end RawRead

namespace RawSearch

/-- The arguments of `raw_search`. -/
structure Args where
  query : String
  scope : Option String
  limit : Option Int

/-- The arguments of `raw_search` are read. -/
def Args.read (args : Json) : Option Args :=
  if args.fits 3 then do
    let query ← args.field "query" 0 Json.asString none none
    let scope ← args.field "scope" 1 (Json.asOption Json.asString) (some none) none
    let limit ← args.field "limit" 2 (Json.asOption Json.asI64) (some none) none
    pure ⟨query, scope, limit⟩
  else none

/-- The limit asked for, kept within `1..=100`. -/
def Args.clamped (a : Args) : Int := Search.clampLimit (a.limit.getD 20)

/-- The query for the raws of the user, or for the shared ones. -/
def Args.search (a : Args) (userId : String) : Scope → Search.SearchQuery
  | .personal => ⟨a.query, some .personal, some userId, a.clamped⟩
  | .shared => ⟨a.query, some .shared, none, a.clamped⟩

/-- The raws found: those of the user, then the shared ones. -/
def results (fts : Fts) (db : Db) (userId : String) (a : Args) (scope : Option Scope) : List Raw :=
  let personal := if wants scope .personal then Search.raws fts db (a.search userId .personal) else []
  let shared := if wants scope .shared then Search.raws fts db (a.search userId .shared) else []
  (personal ++ shared).take a.clamped.toNat

/-- The raws that a search finds. -/
def call (fts : Fts) (db : Db) (userId : String) (args : Json) : Except ToolError Json := do
  let a ← readArgs (Args.read args)
  let scope ← parseScopeArg a.scope
  pure (.object [("results", .arr ((results fts db userId a scope).map Raw.toJson))])

end RawSearch

namespace WikiList

/-- The arguments of `wiki_list` are read. -/
def readScope (args : Json) : Option (Option String) :=
  if args.fits 1 then args.field "scope" 0 (Json.asOption Json.asString) (some none) none else none

/-- The concepts of the user, and those of the shared memories. -/
def call (db : Db) (userId : String) (args : Json) : Except ToolError Json := do
  let a ← readArgs (readScope args)
  let scope ← parseScopeArg a
  let personal := if wants scope .personal then Wikis.listConcepts db (.personal userId) else []
  let shared := if wants scope .shared then
      (SharedMemories.listAll db).map fun sm => Json.object [("shared_memory_id", .str sm.id),
        ("concepts", .arr ((Wikis.listConcepts db ⟨.shared, sm.id⟩).map .str))]
    else []
  pure (.object [("personal", .arr (personal.map .str)), ("shared", .arr shared)])

end WikiList

namespace WikiRead

/-- The arguments of `wiki_read` are read. -/
def readArgs (args : Json) : Option (String × Option String) :=
  if args.fits 2 then do
    let concept ← args.field "concept" 0 Json.asString none none
    let scope ← args.field "scope" 1 (Json.asOption Json.asString) (some none) none
    pure (concept, scope)
  else none

/-- The page of a concept of the user, and those of the shared memories. -/
def call (db : Db) (userId : String) (args : Json) : Except ToolError Json := do
  let (concept, scope) ← LlmMemory.readArgs (readArgs args)
  let scope ← parseScopeArg scope
  let personal := if wants scope .personal then Wikis.get db (.personal userId) concept else none
  let shared := if wants scope .shared then
      (SharedMemories.listAll db).filterMap fun sm => Wikis.get db ⟨.shared, sm.id⟩ concept
    else []
  pure (.object [("concept", .str concept), ("personal", .option Wiki.toJson personal),
    ("shared", .arr (shared.map Wiki.toJson))])

end WikiRead

namespace SchemaRead

/-- The arguments of `schema_read` are read. -/
def readArgs (args : Json) : Option (String × Option String) :=
  if args.fits 2 then do
    let scope ← args.field "scope" 0 Json.asString none none
    let sharedMemoryId ← args.field "shared_memory_id" 1 (Json.asOption Json.asString) (some none) none
    pure (scope, sharedMemoryId)
  else none

/-- The owner whose schema is asked for. -/
def owner (userId : String) : String × Option String → Except ToolError OwnerKey
  | ("personal", _) => .ok (.personal userId)
  | ("shared", some id) => .ok ⟨.shared, id⟩
  | ("shared", none) => .error (.message "shared_memory_id required")
  | (s, _) => .error (.message s!"invalid scope: {s}")

/-- The schema of an owner. -/
def call (db : Db) (userId : String) (args : Json) : Except ToolError Json := do
  let a ← LlmMemory.readArgs (readArgs args)
  let key ← owner userId a
  pure (.object [("content", .option .str (Schemas.get db key))])

end SchemaRead

namespace Export

/-- The greatest number of raws on a page. -/
def PAGE_LIMIT : ℕ := 100
/-- The greatest number of bytes of the contents of a page, but for a single raw. -/
def PAGE_CONTENT_BYTE_BUDGET : ℕ := 8 * 1024 * 1024

/-- The arguments of `export` are read. -/
def readCursor (args : Json) : Option (Option String) :=
  if args.fits 1 then
    args.field "cursor" 0 (Json.asOption Json.asString) (some none) (some none)
  else none

/-- `str::parse::<i64>`. -/
def parseI64 (s : List Char) : Option Int :=
  let (sign, digits) := match s with
    | '-' :: ds => ((-1 : Int), ds)
    | '+' :: ds => (1, ds)
    | ds => (1, ds)
  if digits = [] ∨ ¬ digits.all (·.isDigit) then none
  else
    let n := sign * (digits.foldl (fun n c => 10 * n + (c.toNat - '0'.toNat)) 0 : ℕ)
    if -2 ^ 63 ≤ n ∧ n < 2 ^ 63 then some n else none

/-- Where a page starts: after the raw of this time and id. A cursor without an
    id is of the old format. -/
def parseCursor (cursor : Option String) : Except ToolError (Int × String) :=
  match cursor with
  | none => .ok (0, "")
  | some s =>
    if s.isEmpty then .ok (0, "")
    else
      let at' := s.toList.takeWhile (· ≠ ':')
      match parseI64 at' with
      | some t => .ok (t, String.ofList (s.toList.drop (at'.length + 1)))
      | none => .error (.message "invalid cursor created_at")

/-- The raws of a user after a cursor, `ORDER BY created_at ASC, id ASC`, one
    more than a page at most. -/
def fetch (db : Db) (userId : String) (c : Int × String) : List Raw :=
  ((db.raws.filter fun r => r.key = .personal userId ∧
    (c.1 < r.createdAt ∨ (r.createdAt = c.1 ∧ c.2 < r.id))).insertionSort Raws.byCreation).take
      (PAGE_LIMIT + 1)

/-- The raws that fit on a page, of which there is at least one, and whether
    the others are too long. -/
def fill : List Raw → List Raw → ℕ → List Raw × Bool
  | [], page, _ => (page, false)
  | r :: rs, page, total =>
    let nextTotal := total + r.content.utf8ByteSize
    if page ≠ [] ∧ PAGE_CONTENT_BYTE_BUDGET < nextTotal then (page, true)
    else fill rs (page ++ [r]) nextTotal

/-- A page of the raws of a user, with the wiki and the schema if it is the first one. -/
def call (db : Db) (now : Int) (userId : String) (args : Json) : Except ToolError Json := do
  let a ← readArgs (readCursor args)
  let c ← parseCursor a
  let raws := fetch db userId c
  let (page, overflow) := fill (raws.take PAGE_LIMIT) [] 0
  let nextCursor := if overflow ∨ PAGE_LIMIT < raws.length then
      page.getLast?.map fun last => s!"{last.createdAt}:{last.id}"
    else none
  -- the pages and the schema come with the first page only
  let first := c = (0, "")
  let wikis := if first then some (Wikis.listForOwner db (.personal userId)) else none
  let schema := if first then Schemas.get db (.personal userId) else none
  pure (.object [("version", .int 1), ("exported_at", .int now), ("user_id", .str userId),
    ("raws", .arr (page.map Raw.toJson)),
    ("wikis", .option (fun ws => .arr (ws.map Wiki.toJson)) wikis),
    ("schema", .option .str schema), ("next_cursor", .option .str nextCursor)])

end Export

/-! ## The response -/

/-- A response of the server. -/
structure JsonRpcResponse where
  id : Option Json
  result : Json

/-- The result of a call that succeeded. -/
def callToolResultOk (value : Json) : Json :=
  .object [("content", .arr [.object [("type", .str "text"), ("text", .str value.toText)]]),
    ("isError", .bool false)]

/-- The result of a call that failed. -/
def callToolResultErr (message : String) : Json :=
  .object [("content", .arr [.object [("type", .str "text"), ("text", .str message)]]),
    ("isError", .bool true)]

/-- The tools that read. -/
inductive ReadTool
  | rawRead
  | rawSearch
  | wikiRead
  | wikiList
  | schemaRead
  | «export»
  deriving DecidableEq, Repr

namespace ReadTool

/-- The name of a tool. -/
def name : ReadTool → String
  | rawRead => "raw_read"
  | rawSearch => "raw_search"
  | wikiRead => "wiki_read"
  | wikiList => "wiki_list"
  | schemaRead => "schema_read"
  | «export» => "export"

/-- The name of the tier that limits the rate of a tool. -/
def tier : ReadTool → String
  | «export» => "heavy"
  | _ => "read"

/-- What a tool answers at the time `now`. -/
def run (fts : Fts) (now : Int) (db : Db) (userId : String) (args : Json) :
    ReadTool → Except ToolError Json
  | rawRead => RawRead.call db userId args
  | rawSearch => RawSearch.call fts db userId args
  | wikiRead => WikiRead.call db userId args
  | wikiList => WikiList.call db userId args
  | schemaRead => SchemaRead.call db userId args
  | «export» => Export.call db now userId args

/-- The response to a call, which the rate limiter admits or not. The reason of
    a failure is not part of it. -/
def call (fts : Fts) (now : Int) (db : Db) (userId : String) (id : Option Json) (admitted : Bool)
    (args : Json) (t : ReadTool) : JsonRpcResponse :=
  if ¬ admitted then ⟨id, callToolResultErr s!"rate_limited: {tier t} tier"⟩
  else match t.run fts now db userId args with
    | .ok v => ⟨id, callToolResultOk v⟩
    | .error _ => ⟨id, callToolResultErr s!"tool '{name t}' failed"⟩

end ReadTool

end LlmMemory
