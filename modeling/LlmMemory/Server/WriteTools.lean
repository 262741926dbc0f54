import LlmMemory.Server.JsonText
import LlmMemory.Server.Tools
import LlmMemory.System.Step

/-!
# The write tools

The tools that write: `raw_append`, `schema_update` and `wiki_rebuild`. A call of
one reads its arguments (`WriteTool.start`), then waits for a write or for the
coordinator (`WriteCall`), and answers when it is done (`WriteCall.next`).
-/

namespace LlmMemory

/-- A call in flight: waiting for a write, or for the coordinator. -/
inductive WriteCall
  | insertRaw (r : Raw)
  | notifyAppend (rawId : String)
  | upsertSchema (content : String) (now : Int)
  | requestManual (concept : Option String)
  deriving DecidableEq, Repr

namespace RawAppend

/-- The tags are kept as the text of their list. -/
def tagsJson (tags : List String) : String := (Json.arr (tags.map .str)).toText

/-- The arguments of `raw_append` are read. -/
def readArgs (args : Json) : Option AppendArgs :=
  if args.fits 4 then do
    let title ← args.field "title" 0 Json.asString none none
    let content ← args.field "content" 1 Json.asString none none
    let source ← args.field "source" 2 Json.asString none none
    let tags ←
      args.field "tags" 3 (Json.asOption (Json.asVec Json.asString)) (some none) none
    pure ⟨title, content, source, tags.map tagsJson⟩
  else none

/-- The raw to insert, its id and its time being drawn before the query. -/
def start (userId ulid : String) (now : Int) (args : Json) : Except ToolError WriteCall := do
  let a ← LlmMemory.readArgs (readArgs args)
  if a.title.isEmpty ∨ a.content.isEmpty then .error (.message "title and content required")
  else if MAX_CONTENT_BYTES < a.content.utf8ByteSize then .error (.message "content exceeds 1 MB")
  else .ok (.insertRaw ⟨ulid, .personal, userId, a.title, a.content, a.source, a.tags, some userId,
    now⟩)

end RawAppend

namespace SchemaUpdate

/-- The arguments of `schema_update` are read. -/
def readArgs (args : Json) : Option String :=
  if args.fits 1 then args.field "content" 0 Json.asString none none else none

/-- The schema is to be written, with the time read now. -/
def start (now : Int) (args : Json) : Except ToolError WriteCall := do
  let content ← LlmMemory.readArgs (readArgs args)
  .ok (.upsertSchema content now)

end SchemaUpdate

namespace WikiRebuild

/-- The arguments of `wiki_rebuild` are read. -/
def readArgs (args : Json) : Option (Option String) :=
  if args.fits 1 then
    args.field "concept" 0 (Json.asOption Json.asString) (some none) (some none)
  else none

/-- A rebuild is to be requested, of a concept if one is given, whose name is checked. -/
def start (args : Json) : Except ToolError WriteCall := do
  let concept ← LlmMemory.readArgs (readArgs args)
  match concept with
  | some c =>
    if ¬ Concept.isValid c then .error (.message s!"invalid concept: {c}")
    else .ok (.requestManual (some c))
  | none => .ok (.requestManual none)

end WikiRebuild

/-- The tools that write. -/
inductive WriteTool
  | rawAppend
  | schemaUpdate
  | wikiRebuild
  deriving DecidableEq, Repr

namespace WriteTool

/-- The name of a tool. -/
def name : WriteTool → String
  | rawAppend => "raw_append"
  | schemaUpdate => "schema_update"
  | wikiRebuild => "wiki_rebuild"

/-- What a tool does before it waits. -/
def start (userId ulid : String) (now : Int) (args : Json) : WriteTool → Except ToolError WriteCall
  | rawAppend => RawAppend.start userId ulid now args
  | schemaUpdate => SchemaUpdate.start now args
  | wikiRebuild => WikiRebuild.start args

end WriteTool

/-- What a request does, apart from the worker that it may start. -/
def Shared.effect (s : Shared) : Effect → Shared
  | .insertRaw r => { s with db := Raws.insert s.db r }
  | .tryStart key mode => (s.tryStart key mode).2
  | .upsertSchema key content now => { s with db := Schemas.upsert s.db key content now }
  | .deleteUser userId =>
    { s with
      db := Users.deleteCascade s.db userId,
      hist := { s.hist with deleted := s.hist.deleted ++ [userId] } }

/-- An effect of a request on what the system shares. -/
theorem Sys.effect_shared (s : Sys) (e : Effect) : (s.effect e).shared = s.shared.effect e := by
  cases e with
  | tryStart key mode => exact Sys.effect_tryStart_shared
  | _ => rfl

theorem Sys.effects_shared (es : List Effect) (s : Sys) :
    (es.foldl Sys.effect s).shared = es.foldl Shared.effect s.shared := by
  induction es generalizing s with
  | nil => rfl
  | cons e es ih => rw [List.foldl_cons, ih, Sys.effect_shared, List.foldl_cons]

namespace WriteCall

/-- The next step of a call, `ok` being whether a write succeeds: how it goes on, or its
    answer, and its effects. -/
def next (userId : String) (s : Shared) (ok : Bool) :
    WriteCall → (WriteCall ⊕ Except ToolError Json) × List Effect
  | .insertRaw r =>
    if ok ∧ Raws.get s.db r.id = none then (.inl (.notifyAppend r.id), [.insertRaw r])
    else (.inr (.error storageError), [])
  | .notifyAppend rawId =>
    let key := OwnerKey.personal userId
    let started := (s.tryStart key .append).1.isSome
    (.inr (.ok (.object [("raw_id", .str rawId), ("rebuild_started", .bool started)])),
      [.tryStart key .append])
  | .upsertSchema content now =>
    if ok then
      (.inr (.ok (.object [("ok", .bool true)])), [.upsertSchema (.personal userId) content now])
    else (.inr (.error storageError), [])
  | .requestManual concept =>
    let key := OwnerKey.personal userId
    let status := if (s.tryStart key (.manual concept)).1.isSome then "started" else "pending"
    (.inr (.ok (.object [("status", .str status)])), [.tryStart key (.manual concept)])

end WriteCall

end LlmMemory
