import LlmMemory.Server.Noninterference
import LlmMemory.System.Step

/-!
# The read tools, query by query

A call of a read tool reads its arguments (`ReadTool.start`) and then awaits its queries
one after the other (`ReadCall.next`), with the steps of others in between: a search asks
for the raws of each scope, `wiki_read` and `wiki_list` for the rows of the user, the
shared memories and the rows of each of these, and the first page of an export for the
raws, the pages and the schema, after which it reads the clock. A query that fails ends
the call.

Where nothing happens in between, a call gives what the tool gives on the one state
(`ReadTool.start_run`).
-/

namespace LlmMemory

/-- A call in flight: what it asks next, with what it was told before. -/
inductive ReadCall
  | getRaw (id : String)
  | searchPersonal (a : RawSearch.Args) (scope : Option Scope)
  | searchShared (a : RawSearch.Args) (found : List Raw)
  | getWiki (concept : String) (scope : Option Scope)
  | memoriesOfRead (concept : String) (personal : Option Wiki)
  | getSharedWiki (concept : String) (personal : Option Wiki) (sm : SharedMemory)
      (rest : List SharedMemory) (found : List Wiki)
  | listConcepts (scope : Option Scope)
  | memoriesOfList (personal : List String)
  | listSharedConcepts (personal : List String) (sm : SharedMemory) (rest : List SharedMemory)
      (listed : List (String × List String))
  | getSchema
  | getSharedSchema (id : String)
  | fetchRaws (cursor : Int × String)
  | exportWikis (page : List Raw) (nextCursor : Option String)
  | exportSchema (page : List Raw) (nextCursor : Option String) (wikis : List Wiki)
  | exported (page : List Raw) (nextCursor : Option String) (wikis : Option (List Wiki))
      (schema : Option String)

/-- What becomes of a call: it goes on, or it is answered. -/
abbrev ReadCall.Outcome : Type := ReadCall ⊕ Except ToolError Json

/-! ## The answers -/

/-- The raw found, if the user may read it. -/
def RawRead.result (userId : String) : Option Raw → Except ToolError Json
  | none => .error (.message "not found")
  | some raw =>
    if raw.scope = .personal ∧ raw.ownerId ≠ userId then .error (.message "not found")
    else .ok raw.toJson

/-- The raws found, cut off at the limit. -/
def RawSearch.result (a : RawSearch.Args) (found : List Raw) : Json :=
  .object [("results", .arr ((found.take a.clamped.toNat).map Raw.toJson))]

/-- The page of the user, and those of the shared memories. -/
def WikiRead.result (concept : String) (personal : Option Wiki) (shared : List Wiki) : Json :=
  .object [("concept", .str concept), ("personal", .option Wiki.toJson personal),
    ("shared", .arr (shared.map Wiki.toJson))]

/-- The concepts of the user, and those of each shared memory. -/
def WikiList.result (personal : List String) (shared : List (String × List String)) : Json :=
  .object [("personal", .arr (personal.map .str)),
    ("shared", .arr (shared.map fun (id, concepts) =>
      .object [("shared_memory_id", .str id), ("concepts", .arr (concepts.map .str))]))]

/-- The schema found. -/
def SchemaRead.result (content : Option String) : Json :=
  .object [("content", .option .str content)]

/-- A page of an export. -/
def Export.result (now : Int) (userId : String) (page : List Raw) (nextCursor : Option String)
    (wikis : Option (List Wiki)) (schema : Option String) : Json :=
  .object [("version", .int 1), ("exported_at", .int now), ("user_id", .str userId),
    ("raws", .arr (page.map Raw.toJson)),
    ("wikis", .option (fun ws => .arr (ws.map Wiki.toJson)) wikis),
    ("schema", .option .str schema), ("next_cursor", .option .str nextCursor)]

/-- The raws that fit on a page of those fetched, and the cursor of the next page. -/
def Export.pageOf (raws : List Raw) : List Raw × Option String :=
  let (page, overflow) := Export.fill (raws.take Export.PAGE_LIMIT) [] 0
  (page, if overflow ∨ Export.PAGE_LIMIT < raws.length then
      page.getLast?.map fun last => s!"{last.createdAt}:{last.id}"
    else none)

/-! ## The calls -/

namespace ReadCall

/-- The pages of the shared memories that are left. -/
def readShared (concept : String) (personal : Option Wiki) (found : List Wiki) :
    List SharedMemory → Outcome
  | [] => .inr (.ok (WikiRead.result concept personal found))
  | sm :: rest => .inl (.getSharedWiki concept personal sm rest found)

/-- The concepts of the shared memories that are left. -/
def listShared (personal : List String) (listed : List (String × List String)) :
    List SharedMemory → Outcome
  | [] => .inr (.ok (WikiList.result personal listed))
  | sm :: rest => .inl (.listSharedConcepts personal sm rest listed)

/-- How a call goes on once its query has found what is in the database. -/
def found (fts : Fts) (userId : String) (db : Db) : ReadCall → Outcome
  | .getRaw id => .inr (RawRead.result userId (Raws.get db id))
  | .searchPersonal a scope =>
    let raws := Search.raws fts db (a.search userId .personal)
    if wants scope .shared then .inl (.searchShared a raws)
    else .inr (.ok (RawSearch.result a raws))
  | .searchShared a raws =>
    .inr (.ok (RawSearch.result a (raws ++ Search.raws fts db (a.search userId .shared))))
  | .getWiki concept scope =>
    let personal := Wikis.get db (.personal userId) concept
    if wants scope .shared then .inl (.memoriesOfRead concept personal)
    else .inr (.ok (WikiRead.result concept personal []))
  | .memoriesOfRead concept personal => readShared concept personal [] (SharedMemories.listAll db)
  | .getSharedWiki concept personal sm rest found =>
    readShared concept personal (found ++ (Wikis.get db ⟨.shared, sm.id⟩ concept).toList) rest
  | .listConcepts scope =>
    let personal := Wikis.listConcepts db (.personal userId)
    if wants scope .shared then .inl (.memoriesOfList personal)
    else .inr (.ok (WikiList.result personal []))
  | .memoriesOfList personal => listShared personal [] (SharedMemories.listAll db)
  | .listSharedConcepts personal sm rest listed =>
    listShared personal (listed ++ [(sm.id, Wikis.listConcepts db ⟨.shared, sm.id⟩)]) rest
  | .getSchema => .inr (.ok (SchemaRead.result (Schemas.get db (.personal userId))))
  | .getSharedSchema id => .inr (.ok (SchemaRead.result (Schemas.get db ⟨.shared, id⟩)))
  | .fetchRaws cursor =>
    let (page, nextCursor) := Export.pageOf (Export.fetch db userId cursor)
    -- the pages and the schema come with the first page only
    if cursor = (0, "") then .inl (.exportWikis page nextCursor)
    else .inl (.exported page nextCursor none none)
  | .exportWikis page nextCursor =>
    .inl (.exportSchema page nextCursor (Wikis.listForOwner db (.personal userId)))
  | .exportSchema page nextCursor wikis =>
    .inl (.exported page nextCursor (some wikis) (Schemas.get db (.personal userId)))
  | w@(.exported ..) => .inl w

/-- The next step of a call, `ok` being whether its query succeeds. The last step of an
    export is no query: it reads the clock. -/
def next (fts : Fts) (userId : String) (s : Shared) (ok : Bool) : ReadCall → Outcome
  | .exported page nextCursor wikis schema =>
    .inr (.ok (Export.result s.now userId page nextCursor wikis schema))
  | w => if ok then w.found fts userId s.db else .inr (.error storageError)

/-- The call searches. -/
def Searches : ReadCall → Prop
  | .searchPersonal _ _ => True
  | .searchShared _ _ => True
  | _ => False

/-- Where the queries all succeed and find the same state, this answer is given. -/
inductive Answers (fts : Fts) (userId : String) (s : Shared) :
    Outcome → Except ToolError Json → Prop
  | done {r : Except ToolError Json} : Answers fts userId s (.inr r) r
  | next {w : ReadCall} {r : Except ToolError Json} :
      Answers fts userId s (w.next fts userId s true) r → Answers fts userId s (.inl w) r

/-- A call that was read, or that failed before its first query. -/
def started : Except ToolError ReadCall → Outcome
  | .ok w => .inl w
  | .error e => .inr (.error e)

end ReadCall

namespace ReadTool

/-- What a call of a tool does before its first query. -/
def start (userId : String) (args : Json) : ReadTool → Except ToolError ReadCall
  | rawRead => do
    let id ← readArgs (RawRead.readId args)
    pure (.getRaw id)
  | rawSearch => do
    let a ← readArgs (RawSearch.Args.read args)
    let scope ← parseScopeArg a.scope
    pure (if wants scope .personal then .searchPersonal a scope else .searchShared a [])
  | wikiRead => do
    let (concept, scope) ← readArgs (WikiRead.readArgs args)
    let scope ← parseScopeArg scope
    pure (if wants scope .personal then .getWiki concept scope else .memoriesOfRead concept none)
  | wikiList => do
    let a ← readArgs (WikiList.readScope args)
    let scope ← parseScopeArg a
    pure (if wants scope .personal then .listConcepts scope else .memoriesOfList [])
  | schemaRead => do
    let a ← readArgs (SchemaRead.readArgs args)
    let key ← SchemaRead.owner userId a
    pure (match key.scope with
      | .personal => .getSchema
      | .shared => .getSharedSchema key.ownerId)
  | «export» => do
    let a ← readArgs (Export.readCursor args)
    let cursor ← Export.parseCursor a
    pure (.fetchRaws cursor)

end ReadTool

/-! ## On one state -/

namespace ReadCall

variable {fts : Fts} {userId : String} {s : Shared}

/-- The pages of the remaining shared memories are read on the one state. -/
theorem readShared_answers (concept : String) (personal : Option Wiki) (found : List Wiki)
    (sms : List SharedMemory) :
    Answers fts userId s (readShared concept personal found sms)
      (.ok (WikiRead.result concept personal
        (found ++ sms.filterMap fun sm => Wikis.get s.db ⟨.shared, sm.id⟩ concept))) := by
  induction sms generalizing found with
  | nil =>
    rw [List.filterMap_nil, List.append_nil]
    exact .done
  | cons sm sms ih =>
    refine .next ?_
    have hfound : found ++ (sm :: sms).filterMap (fun sm => Wikis.get s.db ⟨.shared, sm.id⟩ concept) =
        found ++ (Wikis.get s.db ⟨.shared, sm.id⟩ concept).toList ++
          sms.filterMap fun sm => Wikis.get s.db ⟨.shared, sm.id⟩ concept := by
      rw [List.filterMap_cons]
      cases Wikis.get s.db ⟨.shared, sm.id⟩ concept <;> simp
    rw [hfound]
    exact ih _

theorem listShared_answers (personal : List String) (listed : List (String × List String))
    (sms : List SharedMemory) :
    Answers fts userId s (listShared personal listed sms)
      (.ok (WikiList.result personal
        (listed ++ sms.map fun sm => (sm.id, Wikis.listConcepts s.db ⟨.shared, sm.id⟩)))) := by
  induction sms generalizing listed with
  | nil =>
    rw [List.map_nil, List.append_nil]
    exact .done
  | cons sm sms ih =>
    refine .next ?_
    rw [List.map_cons, List.append_cons]
    exact ih _

/-- What follows the list of the shared memories, on the one state. -/
theorem memoriesOfList_answers (personal : List String) :
    Answers fts userId s (next fts userId s true (.memoriesOfList personal))
      (.ok (.object [("personal", .arr (personal.map .str)),
        ("shared", .arr ((SharedMemories.listAll s.db).map fun sm =>
          .object [("shared_memory_id", .str sm.id),
            ("concepts", .arr ((Wikis.listConcepts s.db ⟨.shared, sm.id⟩).map .str))]))])) := by
  have hlisted : Answers fts userId s (listShared personal [] (SharedMemories.listAll s.db)) _ :=
    listShared_answers personal [] _
  rw [List.nil_append, WikiList.result, List.map_map] at hlisted
  exact hlisted

end ReadCall

/-- A call whose queries all find the same state gives what the tool gives on that state. -/
theorem ReadTool.start_run (fts : Fts) (s : Shared) (userId : String) (args : Json) (t : ReadTool) :
    ReadCall.Answers fts userId s (ReadCall.started (t.start userId args))
      (t.run fts s.now s.db userId args) := by
  cases t with
  | rawRead =>
    rw [start, run, RawRead.call]
    cases RawRead.readId args with
    | none => exact .done
    | some id => exact .next .done
  | rawSearch =>
    rw [start, run, RawSearch.call]
    cases RawSearch.Args.read args with
    | none => exact .done
    | some a =>
      change ReadCall.Answers _ _ _ (ReadCall.started (parseScopeArg a.scope >>= _))
        (parseScopeArg a.scope >>= _)
      rcases parseScopeArg a.scope with e | scope
      · exact .done
      · rcases scope with _ | _ | _
        · exact .next (.next .done)
        · refine .next ?_
          show ReadCall.Answers _ _ _ _ (.ok (RawSearch.result a (_ ++ [])))
          rw [List.append_nil]
          exact .done
        · exact .next .done
  | wikiRead =>
    rw [start, run, WikiRead.call]
    cases WikiRead.readArgs args with
    | none => exact .done
    | some a =>
      change ReadCall.Answers _ _ _ (ReadCall.started (parseScopeArg a.2 >>= _))
        (parseScopeArg a.2 >>= _)
      rcases parseScopeArg a.2 with e | scope
      · exact .done
      · rcases scope with _ | _ | _
        · exact .next (.next (ReadCall.readShared_answers ..))
        · exact .next .done
        · exact .next (ReadCall.readShared_answers ..)
  | wikiList =>
    rw [start, run, WikiList.call]
    cases WikiList.readScope args with
    | none => exact .done
    | some a =>
      change ReadCall.Answers _ _ _ (ReadCall.started (parseScopeArg a >>= _))
        (parseScopeArg a >>= _)
      rcases parseScopeArg a with e | scope
      · exact .done
      · rcases scope with _ | _ | _
        · exact .next (.next (ReadCall.memoriesOfList_answers _))
        · exact .next .done
        · exact .next (ReadCall.memoriesOfList_answers _)
  | schemaRead =>
    rw [start, run, SchemaRead.call]
    cases SchemaRead.readArgs args with
    | none => exact .done
    | some a =>
      change ReadCall.Answers _ _ _ (ReadCall.started (SchemaRead.owner userId a >>= _))
        (SchemaRead.owner userId a >>= _)
      unfold SchemaRead.owner
      split
      · exact .next .done
      · exact .next .done
      · exact .done
      · exact .done
  | «export» =>
    rw [start, run, Export.call]
    cases Export.readCursor args with
    | none => exact .done
    | some a =>
      change ReadCall.Answers _ _ _ (ReadCall.started (Export.parseCursor a >>= _))
        (Export.parseCursor a >>= _)
      rcases Export.parseCursor a with e | cursor
      · exact .done
      · refine .next ?_
        show ReadCall.Answers _ _ _ (ReadCall.found fts userId s.db (.fetchRaws cursor)) _
        by_cases hfirst : cursor = (0, "")
        · subst hfirst
          exact .next (.next (.next .done))
        · simp only [ReadCall.found, if_neg hfirst, bind, Except.bind]
          exact .next .done

end LlmMemory
