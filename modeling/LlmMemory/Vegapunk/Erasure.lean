import LlmMemory.Vegapunk.Handlers

/-!
# Fields named `schema`

No handler reads a field named `schema`: a call does the same if such fields are
erased from its parameters, at any depth (`call_erase`).
-/

namespace LlmMemory.Vegapunk

open Effects

mutual

/-- The value without the fields named `schema`, at any depth. -/
def erase : Json → Json
  | .arr vs => .arr (eraseList vs)
  | .obj fields => .obj (eraseFields fields)
  | v => v

/-- The values without their `schema` fields. -/
def eraseList : List Json → List Json
  | [] => []
  | v :: vs => erase v :: eraseList vs

/-- The fields but for `schema`, at any depth. -/
def eraseFields : Fields → Fields
  | [] => []
  | (name, v) :: fields =>
    if name = "schema" then eraseFields fields else (name, erase v) :: eraseFields fields

end

/-! ## Readers -/

section Readers

/-- A computation that succeeds goes on. -/
@[simp] theorem ok_bind {α β ε : Type} {a : α} {f : α → Except ε β} :
    (Except.ok a >>= f) = f a := rfl

variable {v : Json} {obj : Fields} {field owner : String}

@[simp] theorem asString_erase : (erase v).asString = v.asString := by
  cases v <;> simp [erase, Json.asString]

@[simp] theorem asI64_erase : (erase v).asI64 = v.asI64 := by
  cases v <;> simp [erase, Json.asI64]

@[simp] theorem asArray_erase : asArray (erase v) = (asArray v).map eraseList := by
  cases v <;> simp [erase, asArray]

@[simp] theorem asObject_erase : asObject (erase v) = (asObject v).map eraseFields := by
  cases v <;> simp [erase, asObject]

@[simp] theorem eraseList_eq_nil {vs : List Json} : eraseList vs = [] ↔ vs = [] := by
  cases vs <;> simp [eraseList]

@[simp] theorem lookup_eraseFields (h : field ≠ "schema") :
    (eraseFields obj).lookup field = (obj.lookup field).map erase := by
  induction obj with
  | nil => simp [eraseFields]
  | cons f obj ih =>
    obtain ⟨name, v⟩ := f
    by_cases hname : name = "schema"
    · have hne : (field == name) = false := by simp [hname, h]
      rw [eraseFields, if_pos hname, ih, List.lookup_cons, hne]
    · simp only [eraseFields, hname, if_false, List.lookup_cons, ih]
      split <;> rfl

@[simp] theorem present_erase (h : field ≠ "schema") :
    present (eraseFields obj) field = (present obj field).map erase := by
  simp only [present, lookup_eraseFields h]
  rcases obj.lookup field with _ | v
  · rfl
  · cases v <;> simp [erase]

@[simp] theorem requireObjectArgs_erase :
    requireObjectArgs (erase v) = (requireObjectArgs v).map eraseFields := by
  rw [requireObjectArgs, requireObjectArgs, asObject_erase]
  cases asObject v <;> rfl

@[simp] theorem requireStrField_erase (h : field ≠ "schema") :
    requireStrField (eraseFields obj) field owner = requireStrField obj field owner := by
  rw [requireStrField, requireStrField, present_erase h]
  cases present obj field with
  | none => rfl
  | some v => simp [okOr]

@[simp] theorem optionalStrField_erase (h : field ≠ "schema") :
    optionalStrField (eraseFields obj) field owner = optionalStrField obj field owner := by
  rw [optionalStrField, optionalStrField, present_erase h]
  cases present obj field with
  | none => rfl
  | some v => simp

@[simp] theorem enumField_erase {U : Unicode} {name default : String} {valid : List String}
    (h : field ≠ "schema") :
    enumField U (eraseFields obj) field name default valid =
      enumField U obj field name default valid := by
  rw [enumField, enumField, present_erase h]
  cases present obj field with
  | none => rfl
  | some v => simp

@[simp] theorem boundedField_erase {name : String} {min max : Int} {default : Option Int}
    (h : field ≠ "schema") :
    boundedField (eraseFields obj) field name min max default =
      boundedField obj field name min max default := by
  rw [boundedField, boundedField, present_erase h]
  cases present obj field with
  | none => rfl
  | some v => simp

@[simp] theorem optionalBoundedI32_erase {min max : Int} {default : Option Int}
    (h : field ≠ "schema") :
    optionalBoundedI32 (eraseFields obj) field min max default owner =
      optionalBoundedI32 obj field min max default owner :=
  boundedField_erase h

@[simp] theorem idField_erase (h : field ≠ "schema") :
    idField (eraseFields obj) field = idField obj field := by
  rw [idField, idField, lookup_eraseFields h]
  cases obj.lookup field with
  | none => rfl
  | some v => simp

@[simp] theorem commentField_erase : commentField (eraseFields obj) = commentField obj := by
  rw [commentField, commentField, lookup_eraseFields (by decide)]
  cases obj.lookup "comment" with
  | none => rfl
  | some v => cases v <;> rfl

end Readers

/-! ## Builders -/

section Builders

variable {U : Unicode} {userSchema : String} {args item : Json} {obj : Fields}

/-- A computation on the fields of an object, that erasing changes nothing of. -/
theorem map_bind {α : Type} {x : Except String Fields} {f g : Fields → Except String α}
    (h : ∀ obj, f (eraseFields obj) = g obj) : (x.map eraseFields >>= f) = x >>= g := by
  cases x with
  | ok obj => exact h obj
  | error e => rfl

theorem buildSearchRequest_erase :
    buildSearchRequest U userSchema (erase args) = buildSearchRequest U userSchema args := by
  rw [buildSearchRequest, requireObjectArgs_erase]
  refine map_bind fun obj => ?_
  rw [lookup_eraseFields (by decide), enumField_erase (by decide), boundedField_erase (by decide)]
  cases obj.lookup "query" with
  | none => rfl
  | some v => simp

theorem buildMetadata_erase {owner : String} :
    buildMetadata (eraseFields obj) owner = buildMetadata obj owner := by
  simp [buildMetadata]

theorem buildMessage_erase {i : ℕ} : buildMessage i (erase item) = buildMessage i item := by
  rw [buildMessage, buildMessage, asObject_erase]
  cases asObject item with
  | none => rfl
  | some m =>
    cases h : m.lookup "metadata" with
    | none => simp [okOr, h]
    | some v => cases hv : asObject v <;> simp [okOr, h, hv, buildMetadata_erase]

theorem buildMessages_erase {i : ℕ} {items : List Json} :
    buildMessages i (eraseList items) = buildMessages i items := by
  induction items generalizing i with
  | nil => rfl
  | cons item items ih => rw [eraseList, buildMessages, buildMessage_erase, ih, buildMessages]

theorem buildIngestRequest_erase :
    buildIngestRequest userSchema (erase args) = buildIngestRequest userSchema args := by
  rw [buildIngestRequest, requireObjectArgs_erase]
  refine map_bind fun obj => ?_
  cases h : obj.lookup "messages" with
  | none => simp [okOr, h]
  | some v => cases hv : asArray v <;> simp [okOr, h, hv, buildMessages_erase]

theorem buildIngestRawRequest_erase :
    buildIngestRawRequest userSchema (erase args) = buildIngestRawRequest userSchema args := by
  rw [buildIngestRawRequest, requireObjectArgs_erase]
  refine map_bind fun obj => ?_
  cases h : obj.lookup "metadata" with
  | none => simp [okOr, h]
  | some v => cases hv : asObject v <;> simp [okOr, h, hv]

theorem buildAttributeFilter_erase {owner : String} :
    buildAttributeFilter U (erase item) owner = buildAttributeFilter U item owner := by
  rw [buildAttributeFilter, buildAttributeFilter, asObject_erase]
  cases asObject item with
  | none => rfl
  | some m => cases h : present m "value" <;> simp [okOr, h]

theorem buildFilterList_erase {owner : String} {i : ℕ} {items : List Json} :
    buildFilterList U owner i (eraseList items) = buildFilterList U owner i items := by
  induction items generalizing i with
  | nil => rfl
  | cons item items ih =>
    rw [eraseList, buildFilterList, buildAttributeFilter_erase, ih, buildFilterList]

theorem buildAttributeFiltersFrom_erase {owner : String} :
    buildAttributeFiltersFrom U (eraseFields obj) owner = buildAttributeFiltersFrom U obj owner := by
  rw [buildAttributeFiltersFrom, buildAttributeFiltersFrom, present_erase (by decide)]
  cases present obj "filters" with
  | none => rfl
  | some v => cases hv : asArray v <;> simp [okOr, hv, buildFilterList_erase]

theorem buildQueryNodesRequest_erase :
    buildQueryNodesRequest U userSchema (erase args) =
      buildQueryNodesRequest U userSchema args := by
  rw [buildQueryNodesRequest, requireObjectArgs_erase]
  exact map_bind fun obj => by simp [buildAttributeFiltersFrom_erase]

theorem buildGetStatsRequest_erase :
    buildGetStatsRequest U userSchema (erase args) = buildGetStatsRequest U userSchema args := by
  rw [buildGetStatsRequest, requireObjectArgs_erase]
  exact map_bind fun obj => by simp [buildAttributeFiltersFrom_erase]

theorem buildGetTraceableChainRequest_erase :
    buildGetTraceableChainRequest userSchema (erase args) =
      buildGetTraceableChainRequest userSchema args := by
  rw [buildGetTraceableChainRequest, requireObjectArgs_erase]
  exact map_bind fun obj => by simp

theorem readFeedback_erase : readFeedback (erase args) = readFeedback args := by
  rw [readFeedback, readFeedback, asObject_erase]
  cases asObject args with
  | none => rfl
  | some obj => cases h : obj.lookup "rating" <;> simp [okOr, h]

theorem readMsgId_erase : readMsgId (erase args) = readMsgId args := by
  rw [readMsgId, readMsgId, asObject_erase]
  cases asObject args with
  | none => rfl
  | some obj => simp [okOr]

end Builders

/-! ## Calls -/

section Calls

variable {cfg : Config} {user : AuthenticatedUser}

theorem runTool_erase {args : Json} {tool : ToolName} :
    runTool cfg user (erase args) tool = runTool cfg user args tool := by
  cases tool with
  | search => exact congrArg (fun x => built "search" x >>= _) buildSearchRequest_erase
  | ingest => exact congrArg (fun x => built "ingest" x >>= _) buildIngestRequest_erase
  | ingestRaw => exact congrArg (fun x => built "ingest_raw" x >>= _) buildIngestRawRequest_erase
  | queryNodes => exact congrArg (fun x => built "query_nodes" x >>= _) buildQueryNodesRequest_erase
  | getSchema => rfl
  | listSchemas => rfl
  | stats => exact congrArg (fun x => built "stats" x >>= _) buildGetStatsRequest_erase
  | getTraceableChain =>
    exact congrArg (fun x => built "get_traceable_chain" x >>= _) buildGetTraceableChainRequest_erase
  | feedback => exact congrArg (fun x => built "feedback" x >>= _) readFeedback_erase
  | getJobStatus => exact congrArg (fun x => built "get_job_status" x >>= _) readMsgId_erase

theorem readCall_erase {params : Json} :
    readCall (erase params) = (readCall params).map fun x => (x.1, erase x.2) := by
  rw [readCall, readCall, asObject_erase]
  cases asObject params with
  | none => rfl
  | some obj =>
    simp only [Option.map_some, present_erase (by decide : "name" ≠ "schema"),
      lookup_eraseFields (by decide : "arguments" ≠ "schema")]
    cases present obj "name" with
    | none => rfl
    | some v =>
      simp only [Option.map_some, asString_erase]
      split
      · rfl
      · rfl
      · split
        · cases obj.lookup "arguments" <;> rfl
        · rfl

/-- Erasing the fields named `schema` changes nothing of what a call does. -/
theorem call_erase {params : Json} : call cfg user (erase params) = call cfg user params := by
  rw [call, call, readCall_erase]
  cases readCall params with
  | error e => rfl
  | ok x => exact congrArg (fun p => p >>= fun content => pure (Reply.content content)) runTool_erase

end Calls

end LlmMemory.Vegapunk
