import LlmMemory.Vegapunk.Dedup
import LlmMemory.Vegapunk.Erasure

/-!
# The schemas that requests are for

The handlers of the tools take the schemas of their requests from the user and
from the configuration, never from the arguments (`schema_guard`): whatever the
arguments, a request is for the schema of the user, or for the shared one
(`Guarded`), and fields named `schema` in the arguments change nothing, at any
depth (`call_erase`).
-/

namespace LlmMemory.Vegapunk

open Effects Runs Serving

/-! ## Guarded handlers -/

section Guarded

variable (cfg : Config) (user : AuthenticatedUser)

/-- The schema is that of the user, or the shared one. -/
def Own (schema : String) : Prop := schema = user.vegapunkSchema ∨ schema = cfg.sharedSchemaName

/-- A request for a schema is for that of the user or the shared one; one that
    writes, for that of the user. -/
def Guarded : Op → Prop
  | .search r => Own cfg user r.schema
  | .getSchema r => Own cfg user r.name
  | .queryNodes r => Own cfg user r.schema
  | .getStats r => ∃ schema, r.schema = some schema ∧ Own cfg user schema
  | .getTraceableChain r => ∃ schema, r.schema = some schema ∧ Own cfg user schema
  | .ingest r => r.schema = user.vegapunkSchema
  | .ingestRaw r => r.schema = user.vegapunkSchema
  | _ => True

/-- The operation is not one on the locks. -/
def Op.LockFree : Op → Prop
  | .lockFor _ | .lock _ => False
  | _ => True

/-- The operation is not a request by an id alone. -/
def Op.Keyed : Op → Prop
  | .feedback _ | .getJobStatus _ => False
  | _ => True

/-- What a handler does, but for taking the lock of an ingestion, and for requests by
    an id alone. -/
structure Within (o : Op) : Prop where
  guarded : Guarded cfg user o
  lockFree : o.LockFree
  keyed : o.Keyed

variable {cfg user}

theorem within_of_plain {o : Op} (h : o.plain = true) : Within cfg user o := by
  cases o <;> first | exact ⟨trivial, trivial, trivial⟩ | cases h

section Builders

variable {U : Unicode} {userSchema : String} {args : Json}

theorem buildSearchRequest_schema {r : SearchRequest}
    (h : buildSearchRequest U userSchema args = .ok r) : r.schema = userSchema := by
  obtain ⟨obj, -, h⟩ := bind_ok h
  obtain ⟨text, -, h⟩ := bind_ok h
  obtain ⟨mode, -, h⟩ := bind_ok h
  obtain ⟨topK, -, h⟩ := bind_ok h
  cases h
  rfl

theorem buildIngestRequest_schema {r : IngestRequest}
    (h : buildIngestRequest userSchema args = .ok r) : r.schema = userSchema := by
  obtain ⟨obj, -, h⟩ := bind_ok h
  obtain ⟨v, -, h⟩ := bind_ok h
  obtain ⟨items, -, h⟩ := bind_ok h
  split at h
  · cases h
  · obtain ⟨messages, -, h⟩ := bind_ok h
    cases h
    rfl

theorem buildIngestRawRequest_schema {r : IngestRawRequest}
    (h : buildIngestRawRequest userSchema args = .ok r) : r.schema = userSchema := by
  obtain ⟨obj, -, h⟩ := bind_ok h
  obtain ⟨text, -, h⟩ := bind_ok h
  obtain ⟨v, -, h⟩ := bind_ok h
  obtain ⟨metadata, -, h⟩ := bind_ok h
  obtain ⟨sourceType, -, h⟩ := bind_ok h
  obtain ⟨author, -, h⟩ := bind_ok h
  obtain ⟨channel, -, h⟩ := bind_ok h
  obtain ⟨timestamp, -, h⟩ := bind_ok h
  cases h
  rfl

theorem buildQueryNodesRequest_schema {r : QueryNodesRequest}
    (h : buildQueryNodesRequest U userSchema args = .ok r) : r.schema = userSchema := by
  obtain ⟨obj, -, h⟩ := bind_ok h
  obtain ⟨nodeType, -, h⟩ := bind_ok h
  obtain ⟨filters, -, h⟩ := bind_ok h
  obtain ⟨sortBy, -, h⟩ := bind_ok h
  obtain ⟨sortOrder, -, h⟩ := bind_ok h
  obtain ⟨limit, -, h⟩ := bind_ok h
  obtain ⟨offset, -, h⟩ := bind_ok h
  cases h
  rfl

theorem buildGetStatsRequest_schema {r : GetStatsRequest}
    (h : buildGetStatsRequest U userSchema args = .ok r) : r.schema = some userSchema := by
  obtain ⟨obj, -, h⟩ := bind_ok h
  obtain ⟨nodeType, -, h⟩ := bind_ok h
  obtain ⟨filters, -, h⟩ := bind_ok h
  cases h
  rfl

theorem buildGetTraceableChainRequest_schema {r : GetTraceableChainRequest}
    (h : buildGetTraceableChainRequest userSchema args = .ok r) :
    r.schema = some userSchema := by
  obtain ⟨obj, -, h⟩ := bind_ok h
  obtain ⟨nodeId, -, h⟩ := bind_ok h
  obtain ⟨maxDepth, -, h⟩ := bind_ok h
  cases h
  rfl

end Builders

theorem search_does {args : Json} :
    Does (Within cfg user) (fun _ => True) (search cfg user args) := by
  refine Does.bind (built_does fun r hr => buildSearchRequest_schema hr) fun r hr => ?_
  refine Does.bind (perf_does ⟨.inl hr, trivial, trivial⟩) fun personal _ => ?_
  refine Does.bind (perf_does ⟨.inr rfl, trivial, trivial⟩) fun shared _ => ?_
  refine Does.bind orStatus_does fun personal _ => ?_
  refine Does.bind (recordSearch_does fun _ => within_of_plain) fun _ _ => ?_
  exact Does.bind (recordSharedSearch_does fun _ => within_of_plain) fun _ _ => Does.pure trivial

theorem getSchema_does : Does (Within cfg user) (fun _ => True) (getSchema cfg user) := by
  refine Does.bind (perf_does ⟨.inl rfl, trivial, trivial⟩) fun personal _ => ?_
  refine Does.bind (perf_does ⟨.inr rfl, trivial, trivial⟩) fun shared _ => ?_
  exact Does.bind orStatus_does fun _ _ => Does.pure trivial

/-- The queries of the catalogue are for the schemas of the user. -/
theorem query_within (r : QueryNodesRequest)
    (h : r.schema = cfg.sharedSchemaName ∨ r.schema = user.vegapunkSchema) :
    Within cfg user (.queryNodes r) :=
  ⟨h.symm, trivial, trivial⟩

/-- What an ingestion sends is within the schemas of the user. -/
theorem SendsIngest.within {request : IngestRequest} {catalogue : DedupCatalogue}
    {names : List String} {o : Op} (h : SendsIngest cfg.unicode catalogue names request o)
    (hschema : request.schema = user.vegapunkSchema) : Within cfg user o := by
  cases o with
  | ingest r => exact ⟨h.schema.trans hschema, trivial, trivial⟩
  | _ => exact within_of_plain h

theorem ingest_inside {request : IngestRequest} (h : request.schema = user.vegapunkSchema) :
    Does (Within cfg user) (fun _ => True)
      (collectDedupCatalogue cfg.unicode cfg.sharedSchemaName user.vegapunkSchema >>=
        ingestWith cfg user request) :=
  Does.bind (collectDedupCatalogue_does query_within)
    fun _ _ => ingestWith_does.imp fun _ ho => ho.within h

theorem ingest_does {args : Json} :
    Does (fun o : Op => Guarded cfg user o ∧ o.Keyed) (fun _ => True) (ingest cfg user args) := by
  refine Does.bind (built_does fun r hr => buildIngestRequest_schema hr) fun r hr => ?_
  exact Does.bind (acquire_does ⟨trivial, trivial⟩ fun _ => ⟨trivial, trivial⟩)
    fun _ _ => (ingest_inside hr).imp fun _ h => ⟨h.guarded, h.keyed⟩

/-- What a raw ingestion sends is within the schemas. -/
theorem SendsRaw.within {request : IngestRawRequest} {catalogue : DedupCatalogue}
    {names : List String} {o : Op} (h : SendsRaw cfg.unicode catalogue names request o)
    (hschema : request.schema = user.vegapunkSchema) : Within cfg user o := by
  cases o with
  | ingestRaw r => exact ⟨h.schema.trans hschema, trivial, trivial⟩
  | _ => exact within_of_plain h

theorem ingestRaw_inside {request : IngestRawRequest}
    (h : request.schema = user.vegapunkSchema) :
    Does (Within cfg user) (fun _ => True)
      (collectDedupCatalogue cfg.unicode cfg.sharedSchemaName user.vegapunkSchema >>=
        ingestRawWith cfg user request) :=
  Does.bind (collectDedupCatalogue_does query_within)
    fun _ _ => ingestRawWith_does.imp fun _ ho => ho.within h

theorem ingestRaw_does {args : Json} :
    Does (fun o : Op => Guarded cfg user o ∧ o.Keyed) (fun _ => True) (ingestRaw cfg user args) := by
  refine Does.bind (built_does fun r hr => buildIngestRawRequest_schema hr) fun r hr => ?_
  exact Does.bind (acquire_does ⟨trivial, trivial⟩ fun _ => ⟨trivial, trivial⟩)
    fun _ _ => (ingestRaw_inside hr).imp fun _ h => ⟨h.guarded, h.keyed⟩

theorem queryNodes_does {args : Json} :
    Does (Within cfg user) (fun _ => True) (queryNodes cfg user args) := by
  refine Does.bind (built_does fun r hr => buildQueryNodesRequest_schema hr) fun r hr => ?_
  refine Does.bind (perf_does ⟨.inl hr, trivial, trivial⟩) fun personal _ => ?_
  refine Does.bind (perf_does ⟨.inr rfl, trivial, trivial⟩) fun shared _ => ?_
  exact Does.bind orStatus_does fun _ _ => Does.pure trivial

theorem stats_does {args : Json} :
    Does (Within cfg user) (fun _ => True) (stats cfg user args) := by
  refine Does.bind (built_does fun r hr => buildGetStatsRequest_schema hr) fun r hr => ?_
  refine Does.bind (perf_does ⟨⟨_, hr, .inl rfl⟩, trivial, trivial⟩) fun personal _ => ?_
  refine Does.bind (perf_does ⟨⟨_, rfl, .inr rfl⟩, trivial, trivial⟩) fun shared _ => ?_
  exact Does.bind orStatus_does fun _ _ => Does.pure trivial

theorem getTraceableChain_does {args : Json} :
    Does (Within cfg user) (fun _ => True) (getTraceableChain cfg user args) := by
  refine Does.bind (built_does fun r hr => buildGetTraceableChainRequest_schema hr) fun r hr => ?_
  refine Does.bind (perf_does ⟨⟨_, hr, .inl rfl⟩, trivial, trivial⟩) fun personal _ => ?_
  refine Does.bind (perf_does ⟨⟨_, rfl, .inr rfl⟩, trivial, trivial⟩) fun shared _ => ?_
  exact Does.bind pickChain_does fun _ _ => Does.pure trivial

theorem checkOwner_does {tool foreignId : String} {kind : OwnershipKind} :
    Does (fun o : Op => Guarded cfg user o ∧ o.LockFree) (fun _ => True)
      (checkOwner user tool kind foreignId) := by
  have hplain : ∀ o : Op, o.plain = true → Guarded cfg user o ∧ o.LockFree := by
    intro o ho
    have hwithin : Within cfg user o := within_of_plain ho
    exact ⟨hwithin.guarded, hwithin.lockFree⟩
  refine Does.bind (verify_does hplain) fun x _ => ?_
  match x with
  | .ok true => exact Does.pure trivial
  | .ok false => exact Does.fail
  | .error _ => exact Does.fail

theorem feedback_does {args : Json} :
    Does (fun o : Op => Guarded cfg user o ∧ o.LockFree) (fun _ => True) (feedback user args) := by
  refine Does.bind (built_does fun _ _ => trivial) fun req _ => ?_
  refine Does.bind checkOwner_does fun _ _ => Does.bind (perf_does ⟨trivial, trivial⟩) fun _ _ => ?_
  exact Does.bind orStatus_does fun _ _ => Does.pure trivial

theorem getJobStatus_does {args : Json} :
    Does (fun o : Op => Guarded cfg user o ∧ o.LockFree) (fun _ => True) (getJobStatus user args) := by
  refine Does.bind (built_does fun _ _ => trivial) fun req _ => ?_
  refine Does.bind checkOwner_does fun _ _ => Does.bind (perf_does ⟨trivial, trivial⟩) fun _ _ => ?_
  exact Does.bind orStatus_does fun _ _ => Does.pure trivial

theorem listSchemas_does : Does (Within cfg user) (fun _ => True) (listSchemas cfg user) :=
  Does.bind (perf_does ⟨trivial, trivial, trivial⟩) fun _ _ =>
    Does.bind orStatus_does fun _ _ => Does.pure trivial

/-- The tools that ingest. -/
def ToolName.ingests : ToolName → Bool
  | .ingest | .ingestRaw => true
  | _ => false

/-- The tools of which the requests are by an id alone. -/
def ToolName.byId : ToolName → Bool
  | .feedback | .getJobStatus => true
  | _ => false

/-- What a call of a tool does. -/
structure DoneBy (cfg : Config) (user : AuthenticatedUser) (tool : ToolName) (o : Op) : Prop where
  guarded : Guarded cfg user o
  lockFree : tool.ingests = false → o.LockFree
  keyed : tool.byId = false → o.Keyed

/-- What is within the schemas any tool may do. -/
theorem Within.doneBy {tool : ToolName} {o : Op} (h : Within cfg user o) :
    DoneBy cfg user tool o :=
  ⟨h.guarded, fun _ => h.lockFree, fun _ => h.keyed⟩

theorem runTool_does {args : Json} {tool : ToolName} :
    Does (DoneBy cfg user tool) (fun _ => True) (runTool cfg user args tool) := by
  have hwithin : ∀ o, Within cfg user o → DoneBy cfg user tool o := fun _ h => h.doneBy
  cases tool with
  | search => exact search_does.imp hwithin
  | ingest => exact ingest_does.imp fun o h => ⟨h.1, fun hi => (by cases hi), fun _ => h.2⟩
  | ingestRaw => exact ingestRaw_does.imp fun o h => ⟨h.1, fun hi => (by cases hi), fun _ => h.2⟩
  | queryNodes => exact queryNodes_does.imp hwithin
  | getSchema => exact getSchema_does.imp hwithin
  | listSchemas => exact listSchemas_does.imp hwithin
  | stats => exact stats_does.imp hwithin
  | getTraceableChain => exact getTraceableChain_does.imp hwithin
  | feedback => exact feedback_does.imp fun o h => ⟨h.1, fun _ => h.2, fun hb => by cases hb⟩
  | getJobStatus => exact getJobStatus_does.imp fun o h => ⟨h.1, fun _ => h.2, fun hb => by cases hb⟩

/-- The user's schemas are listed, and no other; or there is the error of the graph
    server. -/
def ListsOwn (cfg : Config) (user : AuthenticatedUser) (x : Except Exit Reply) : Prop :=
  (∃ schemas, x = .ok (.content (listSchemasContent schemas)) ∧
    ∀ schema ∈ schemas, Own cfg user schema.name) ∨
  ∃ status, x = .error (.reply (.content (tonicErrorContent "ListSchemas" status)))

/-- The schemas listed are the user's and the shared one. -/
theorem own_of_mem_filter {schemas : List SchemaListItem} {schema : SchemaListItem}
    (h : schema ∈
      filterSchemasForUserAndShared schemas user.vegapunkSchema cfg.sharedSchemaName) :
    Own cfg user schema.name := by
  rcases List.mem_append.1 h with h | h
  · have hname := List.find?_some (Option.mem_toList.1 h)
    exact .inl (of_decide_eq_true hname)
  · split at h
    · have hname := List.find?_some (Option.mem_toList.1 h)
      exact .inr (of_decide_eq_true hname)
    · exact absurd h List.not_mem_nil

/-- What a call answers, if it is one of `list_schemas`. -/
def Lists (cfg : Config) (user : AuthenticatedUser) (params : Json) (x : Except Exit Reply) :
    Prop :=
  ∀ args, readCall params = .ok (.listSchemas, args) → ListsOwn cfg user x

theorem call_does {params : Json} :
    Prog.Does (Guarded cfg user) (Lists cfg user params) (call cfg user params) := by
  rw [call]
  cases hp : readCall params with
  | error e =>
    intro args h
    rw [hp] at h
    cases h
  | ok x =>
    obtain ⟨tool, args⟩ := x
    by_cases htool : tool = .listSchemas
    · subst htool
      refine ⟨trivial, fun resp => ?_⟩
      cases resp with
      | ok schemas =>
        intro args' _
        exact .inl ⟨_, rfl, fun schema hs => own_of_mem_filter hs⟩
      | error status =>
        intro args' _
        exact .inr ⟨status, rfl⟩
    · have hdoes : Does (Guarded cfg user) (fun _ => True)
          (runTool cfg user args tool >>= fun content => pure (Reply.content content)) :=
        Does.bind (runTool_does.imp fun _ h => h.guarded) fun _ _ => Does.pure trivial
      refine hdoes.mono fun _ _ args' h => ?_
      rw [hp] at h
      cases h
      exact absurd rfl htool

end Guarded

/-! ## Runs -/

/-- What a request may do. -/
def GuardedIn (cfg : Config) : Request → Op → Prop
  | .tool user _ => Guarded cfg user
  | _ => fun _ => True

/-- What a request may answer. -/
def ListsIn (cfg : Config) : Request → Except Exit Reply → Prop
  | .tool user params => Lists cfg user params
  | _ => fun _ => True

theorem handle_does {cfg : Config} (req : Request) :
    (handle cfg req).Does (GuardedIn cfg req) (ListsIn cfg req) := by
  have htrue : ∀ o : Op, o.plain = true → (fun _ : Op => True) o := fun _ _ => trivial
  cases req with
  | tool user params => exact call_does
  | record kind foreignId userId =>
    exact (Does.bind (record_does htrue) fun _ _ => Does.pure trivial : Does _ (fun _ => True) _).mono
      fun _ _ => trivial
  | recordMany kind foreignIds userId =>
    exact (Does.bind (recordMany_does htrue) fun _ _ => Does.pure trivial :
      Does _ (fun _ => True) _).mono fun _ _ => trivial
  | verify kind foreignId userId =>
    exact (Does.bind (verify_does htrue) fun _ _ => Does.pure trivial : Does _ (fun _ => True) _).mono
      fun _ _ => trivial

/-- In the run, the requests to the graph server are for the schemas of the users
    who call, the schemas listed are theirs, and the fields named `schema` in what
    they call with change nothing. -/
structure SchemaGuard (cfg : Config) (s : Sys) : Prop where
  requests : ∀ n user params o r, .did n (.tool user params) o r ∈ s.conf.trace →
    Guarded cfg user o
  listed : ∀ n user params args x, .answered n (.tool user params) x ∈ s.conf.trace →
    readCall params = .ok (.listSchemas, args) → ListsOwn cfg user x
  ignored : ∀ user params params', erase params = erase params' →
    handle cfg (.tool user params) = handle cfg (.tool user params')

/-- In every run, what is sent is guarded. -/
theorem schema_guard {cfg : Config} {ok : Sys → Serving.Move Request Input World → Prop} {s : Sys}
    (h : Reached cfg ok s) : SchemaGuard cfg s := by
  have hdoing : Doing (GuardedIn cfg) (ListsIn cfg) s := Server.does handle_does h
  refine ⟨fun n user params o r he => hdoing.did n _ o r he,
    fun n user params args x he => hdoing.answered n _ x he args, fun user params params' he => ?_⟩
  calc call cfg user params = call cfg user (erase params) := call_erase.symm
    _ = call cfg user (erase params') := by rw [he]
    _ = call cfg user params' := call_erase

/-! ### A call with schemas of its own -/

/-- The configuration of the runs below. -/
def Config.sample : Config := ⟨"shared", true, .ascii, fun _ => .null⟩

/-- A user. -/
def sampleUser : AuthenticatedUser := ⟨"u1", "c1", "user_1"⟩

/-- The tables with two users. -/
def sampleStart : State := { users := ["u1", "u2"], ownership := [] }

theorem sampleStart_starts : Starts sampleStart := ⟨List.nodup_nil, rfl, rfl⟩

/-- The parameters of a call of `tool`. -/
def sampleCall (tool : String) (arguments : Fields) : Json :=
  .obj [("name", .str tool), ("arguments", .obj arguments)]

/-- What the service answers a search. -/
def answerSearch (r : Except Status SearchResponse) : Input :=
  .answer fun
    | .search _ => some r
    | _ => none

/-- What the service answers to a request for its schemas. -/
def answerListSchemas (r : Except Status (List SchemaListItem)) : Input :=
  .answer fun
    | .listSchemas => some r
    | _ => none

/-- The user asks for another schema, and lists the schemas that there are. -/
def otherSchema : List (Serving.Move Request Input World) :=
  [.request (.tool sampleUser (sampleCall "search" [("query", .str "x"), ("schema", .str "user_2")])),
    .handling 0 (answerSearch (.ok ⟨[], "", 0, []⟩)),
    .handling 0 (answerSearch (.error ⟨.unavailable, ""⟩)), .handling 0 .ok,
    .request (.tool sampleUser (sampleCall "list_schemas" [])),
    .handling 0 (answerListSchemas (.ok [⟨"user_2", 1, "", ""⟩, ⟨"user_1", 1, "", ""⟩])),
    .handling 0 .ok]

/-- The schema of a search that an event is. -/
def searchedSchema : Done → Option String
  | .did _ _ (.search r) _ => some r.schema
  | _ => none

/-- A search, run in both schemas. -/
theorem schema_guard_search : ∃ s, Reached .sample (fun _ _ => True) s ∧
    s.conf.trace.filterMap searchedSchema = ["user_1", "shared"] ∧ SchemaGuard .sample s := by
  obtain ⟨s, hs, hsearched⟩ : ∃ s, exec (server .sample).step (fun _ _ => true)
      (.start sampleStart) otherSchema = some s ∧
      s.conf.trace.filterMap searchedSchema = ["user_1", "shared"] :=
    Option.map_eq_some_iff.1 (by decide)
  have hr : Reached .sample (fun _ _ => True) s :=
    .exec (fun _ _ _ => trivial) (.init ⟨_, sampleStart_starts, rfl⟩) hs
  exact ⟨s, hr, hsearched, schema_guard hr⟩

end LlmMemory.Vegapunk
