import Mathlib.Data.List.ReduceOption
import LlmMemory.Lib.Batches
import LlmMemory.Server.Json

/-!
# JSON-RPC

Both MCP servers read requests and batches of requests from the body of an HTTP
request, and answer with responses, the same way (`handle`); they differ in how
they dispatch a single request.

A request is read from an object, by the names of its fields, or from an array,
by their positions (`fromValue`). So the entries of a body that are answered as
requests are the objects that are well formed, and some arrays (`accepted_iff`).
Proved here of every way to dispatch requests that only answers those with an id
(`Answering`): responses and entries correspond (`handle_corresponds`).
-/

namespace LlmMemory.Json

/-- The value is a text. -/
def isString : Json → Bool
  | .str _ => true
  | _ => false

/-- The value is a number. -/
def isNumber : Json → Bool
  | .int _ => true
  | .float _ => true
  | _ => false

/-- The value is null. -/
def isNull : Json → Bool
  | .null => true
  | _ => false

/-- The value is an array. -/
def isArray : Json → Bool
  | .arr _ => true
  | _ => false

/-- The value of a field of an object. -/
def get (v : Json) (name : String) : Option Json :=
  match v with
  | .obj fields => fields.lookup name
  | _ => none

end LlmMemory.Json

namespace LlmMemory.JsonRpc

/-- The texts of the libraries: why a value is not a request, and a string in the
    debug format. -/
structure Texts where
  notARequest : Json → String
  debug : String → String

/-- A request as it is read, before its version and its id are looked at. -/
structure JsonRpcRequest where
  jsonrpc : String
  id : Option Json
  method : String
  params : Json

namespace JsonRpcRequest

/-- A request, from an object or from an array. An `id` that is there is kept, also if
    it is null. -/
def read (v : Json) : Option JsonRpcRequest :=
  if ¬ v.fits 4 then none
  else do
    let jsonrpc ← v.field "jsonrpc" 0 Json.asString none none
    let id ← v.field "id" 1 (fun id => some (some id)) (some none) (some none)
    let method ← v.field "method" 2 Json.asString none none
    let params ← v.field "params" 3 some (some .null) (some .null)
    pure ⟨jsonrpc, id, method, params⟩

/-- An entry is read as a request. -/
def fromValue (texts : Texts) (v : Json) : Except String JsonRpcRequest :=
  match read v with
  | some req => .ok req
  | none => .error (texts.notARequest v)

/-- The version is the one that is served. -/
def jsonrpcVersionIsValid (req : JsonRpcRequest) : Bool := req.jsonrpc == "2.0"

/-- The id, if there is one, is a text, a number or null. -/
def idTypeIsValid (req : JsonRpcRequest) : Bool :=
  match req.id with
  | none => true
  | some v => v.isString || v.isNumber || v.isNull

end JsonRpcRequest

/-- An error: a code and a message. -/
structure JsonRpcError where
  code : Int
  message : String

/-- A response, with a result or an error. -/
structure JsonRpcResponse where
  jsonrpc : String
  id : Option Json
  result : Option Json
  error : Option JsonRpcError

namespace JsonRpcResponse

/-- The response to a request that succeeded. -/
def success (id : Option Json) (result : Json) : JsonRpcResponse :=
  ⟨"2.0", id, some result, none⟩

/-- The response to a request that failed. -/
def failure (id : Option Json) (code : Int) (message : String) : JsonRpcResponse :=
  ⟨"2.0", id, none, some ⟨code, message⟩⟩

/-- A response as a value. A result or an error that is missing is left out. -/
def toValue (r : JsonRpcResponse) : Json :=
  let result := r.result.map fun v => ("result", v)
  let error := r.error.map fun e =>
    ("error", .object [("code", .int e.code), ("message", .str e.message)])
  .object ([("jsonrpc", .str r.jsonrpc), ("id", .option (fun id => id) r.id)] ++
    result.toList ++ error.toList)

end JsonRpcResponse

/-- What comes of an entry: a response, or none since it is a notification, or an error
    since it is no request. -/
inductive Outcome
  | response (r : JsonRpcResponse)
  | notification
  | parseError (message : String)

/-- What an entry is answered with, if it is. -/
def Outcome.intoResponseValue : Outcome → Option Json
  | .response r => some r.toValue
  | .notification => none
  | .parseError message => some (JsonRpcResponse.failure none (-32600) message).toValue

/-- The answer to an HTTP request: that it was accepted, without a body, or a value. -/
inductive Reply
  | accepted
  | json (v : Json)

section Handle

variable {σ : Type} (texts : Texts) (dispatchOne : JsonRpcRequest → σ → Outcome × σ)

/-- What comes of an entry of the body. -/
def outcome (entry : Json) (s : σ) : Outcome × σ :=
  match JsonRpcRequest.fromValue texts entry with
  | .ok req =>
    if ¬ req.jsonrpcVersionIsValid then
      (.parseError ("Invalid Request: jsonrpc must be \"2.0\", got " ++ texts.debug req.jsonrpc), s)
    else if ¬ req.idTypeIsValid then
      (.parseError "Invalid Request: id must be string, number, or null", s)
    else dispatchOne req s
  | .error e => (.parseError s!"Invalid Request: {e}", s)

/-- The answer to a body, a value unless it could not be parsed. -/
def handle (body : Option Json) (s : σ) : Reply × σ :=
  match body with
  | none => (.json (JsonRpcResponse.failure none (-32700) "Parse error").toValue, s)
  | some body =>
    let isBatch := body.isArray
    -- a request alone is a batch of one
    let entries := match body with
      | .arr vs => vs
      | _ => [body]
    if isBatch && entries.isEmpty then
      (.json (JsonRpcResponse.failure none (-32600) "Invalid Request: empty batch").toValue, s)
    else
      let (outcomes, s) := Batches.serve (outcome texts dispatchOne) entries s
      let responses := outcomes.filterMap Outcome.intoResponseValue
      if responses.isEmpty then (.accepted, s)
      else if isBatch then (.json (.arr responses), s)
      else (.json (responses.head?.getD .null), s)

end Handle

/-! ## The schemas of arguments -/

/-- The schema of an object with these fields, of which some are required. -/
def objectSchema (properties : List (String × Json)) (required : List String) : Json :=
  .object [("type", .str "object"), ("properties", .object properties),
    ("required", .arr (required.map .str))]

/-- The schema of an object with fields none of which is required. -/
def optionalSchema (properties : List (String × Json)) : Json :=
  .object [("type", .str "object"), ("properties", .object properties)]

/-- The schema of any text. -/
def stringSchema : Json := .object [("type", .str "string")]

/-- The schema of a text that is one of some. -/
def enumSchema (values : List String) : Json :=
  .object [("type", .str "string"), ("enum", .arr (values.map .str))]

/-! ## Which entries are requests -/

/-- A value that may be the id of a request. -/
def IdType (v : Json) : Prop := v.isString = true ∨ v.isNumber = true ∨ v.isNull = true

/-- An object that is a request, with its id if it has one. -/
def WellFormed (e : Json) (id : Option Json) : Prop :=
  ∃ fields, e = .obj fields ∧ fields.lookup "jsonrpc" = some (.str "2.0") ∧
    (∃ method, fields.lookup "method" = some (.str method)) ∧ fields.lookup "id" = id ∧
    ∀ v, id = some v → IdType v

/-- An array of the fields of a request. -/
def Positional (e : Json) (id : Option Json) : Prop :=
  ∃ v method params, id = some v ∧ e = .arr (.str "2.0" :: v :: .str method :: params) ∧
    params.length ≤ 1 ∧ IdType v

/-- An entry that is read as a request. -/
def Accepted (e : Json) (id : Option Json) : Prop := WellFormed e id ∨ Positional e id

section Reading

variable {texts : Texts} {e : Json} {id : Option Json}

/-- A text is read from a text only. -/
theorem asString_eq_some {v : Json} {s : String} : v.asString = some s ↔ v = .str s := by
  cases v <;> simp [Json.asString]

theorem valid_iff (req : JsonRpcRequest) :
    req.jsonrpcVersionIsValid = true ∧ req.idTypeIsValid = true ↔
      req.jsonrpc = "2.0" ∧ ∀ v, req.id = some v → IdType v := by
  unfold JsonRpcRequest.jsonrpcVersionIsValid JsonRpcRequest.idTypeIsValid IdType
  rw [beq_iff_eq]
  cases req.id with
  | none => simp
  | some v => simp [or_assoc]

/-- An entry is a request if it reads as one. -/
theorem fromValue_ok {req : JsonRpcRequest} :
    JsonRpcRequest.fromValue texts e = .ok req ↔ JsonRpcRequest.read e = some req := by
  unfold JsonRpcRequest.fromValue
  cases JsonRpcRequest.read e <;> simp

/-- A request is read field by field. -/
theorem read_eq_some {req : JsonRpcRequest} : JsonRpcRequest.read e = some req ↔ e.fits 4 = true ∧
    e.field "jsonrpc" 0 Json.asString none none = some req.jsonrpc ∧
    e.field "id" 1 (fun id => some (some id)) (some none) (some none) = some req.id ∧
    e.field "method" 2 Json.asString none none = some req.method ∧
    e.field "params" 3 some (some .null) (some .null) = some req.params := by
  unfold JsonRpcRequest.read
  by_cases hfits : e.fits 4 = true
  · rw [if_neg (not_not.2 hfits)]
    simp only [Option.bind_eq_bind, Option.bind_eq_some_iff, Option.pure_def, Option.some_inj]
    constructor
    · rintro ⟨jsonrpc, hjsonrpc, id, hid, method, hmethod, params, hparams, rfl⟩
      exact ⟨hfits, hjsonrpc, hid, hmethod, hparams⟩
    · rintro ⟨-, hjsonrpc, hid, hmethod, hparams⟩
      exact ⟨_, hjsonrpc, _, hid, _, hmethod, _, hparams, rfl⟩
  · rw [if_pos hfits]
    simp [hfits]

theorem getD_map_asString {v : Option Json} {s : String} :
    (v.map Json.asString).getD none = some s ↔ v = some (.str s) := by
  cases v with
  | none => simp
  | some v => simp [asString_eq_some]

/-- A field that is null if it is missing. -/
theorem getD_map_some {v : Option Json} {w : Json} :
    (v.map some).getD (some .null) = some w ↔ v.getD .null = w := by
  cases v <;> simp

theorem getD_map_present {v id : Option Json} :
    (v.map fun id => some (some id)).getD (some none) = some id ↔ v = id := by
  cases v <;> simp

/-- An object is read by the names of its fields. -/
theorem read_obj {fields : List (String × Json)} {req : JsonRpcRequest} :
    JsonRpcRequest.read (.obj fields) = some req ↔
      fields.lookup "jsonrpc" = some (.str req.jsonrpc) ∧ fields.lookup "id" = req.id ∧
        fields.lookup "method" = some (.str req.method) ∧
        (fields.lookup "params").getD .null = req.params := by
  rw [read_eq_some]
  simp only [Json.field, getD_map_asString, getD_map_some, getD_map_present]
  simp [Json.fits]

/-- An array is read by the positions of its elements. -/
theorem read_arr {vs : List Json} {req : JsonRpcRequest} :
    JsonRpcRequest.read (.arr vs) = some req ↔ vs.length ≤ 4 ∧
      vs[0]? = some (.str req.jsonrpc) ∧ vs[1]? = req.id ∧ vs[2]? = some (.str req.method) ∧
        vs[3]?.getD .null = req.params := by
  rw [read_eq_some]
  simp only [Json.field, getD_map_asString, getD_map_some, getD_map_present]
  simp [Json.fits]

theorem read_scalar {req : JsonRpcRequest} (h : JsonRpcRequest.read e = some req) :
    (∃ fields, e = .obj fields) ∨ ∃ vs, e = .arr vs := by
  have hfits := (read_eq_some.1 h).1
  cases e with
  | obj fields => exact .inl ⟨fields, rfl⟩
  | arr vs => exact .inr ⟨vs, rfl⟩
  | _ => cases hfits

/-- An entry is a request that passes the checks if and only if it is accepted, with its
    id. -/
theorem accepted_iff (texts : Texts) :
    (∃ req, JsonRpcRequest.fromValue texts e = .ok req ∧ req.jsonrpcVersionIsValid = true ∧
      req.idTypeIsValid = true ∧ req.id = id) ↔ Accepted e id := by
  constructor
  · rintro ⟨req, hread, hversion, htype, rfl⟩
    obtain ⟨hversion, htype⟩ := (valid_iff req).1 ⟨hversion, htype⟩
    rw [fromValue_ok] at hread
    -- a request is read from an object by its fields, or from an array by their order
    rcases read_scalar hread with ⟨fields, rfl⟩ | ⟨vs, rfl⟩
    · obtain ⟨hjsonrpc, hid, hmethod, -⟩ := read_obj.1 hread
      exact .inl ⟨fields, rfl, hversion ▸ hjsonrpc, ⟨_, hmethod⟩, hid, htype⟩
    · obtain ⟨hlen, hjsonrpc, hid, hmethod, -⟩ := read_arr.1 hread
      rw [hversion] at hjsonrpc
      -- the first three are required, and the parameters may be missing
      rcases vs with _ | ⟨a, _ | ⟨v, _ | ⟨c, params⟩⟩⟩
      · cases hmethod
      · cases hmethod
      · cases hmethod
      · cases hjsonrpc
        cases hmethod
        have hparams : params.length ≤ 1 := by
          simp only [List.length_cons] at hlen
          omega
        exact .inr ⟨v, req.method, params, hid.symm, rfl, hparams, htype v hid.symm⟩
  · rintro (⟨fields, rfl, hjsonrpc, ⟨method, hmethod⟩, hid, htype⟩ |
      ⟨v, method, params, rfl, rfl, hlen, htype⟩)
    · let req : JsonRpcRequest := ⟨"2.0", id, method, (fields.lookup "params").getD .null⟩
      have hread : JsonRpcRequest.read (.obj fields) = some req :=
        read_obj.2 ⟨hjsonrpc, hid, hmethod, rfl⟩
      obtain ⟨hversion, htype⟩ := (valid_iff req).2 ⟨rfl, htype⟩
      exact ⟨req, fromValue_ok.2 hread, hversion, htype, rfl⟩
    · let req : JsonRpcRequest := ⟨"2.0", some v, method, params[0]?.getD .null⟩
      have hlen' : (.str "2.0" :: v :: .str method :: params : List Json).length ≤ 4 := by
        simp only [List.length_cons]
        omega
      have hread : JsonRpcRequest.read (.arr (.str "2.0" :: v :: .str method :: params)) =
          some req := read_arr.2 ⟨hlen', rfl, rfl, rfl, rfl⟩
      have hvalid : ∀ w, req.id = some w → IdType w := by
        rintro w ⟨⟩
        exact htype
      obtain ⟨hversion, htype⟩ := (valid_iff req).2 ⟨rfl, hvalid⟩
      exact ⟨req, fromValue_ok.2 hread, hversion, htype, rfl⟩

end Reading

/-! ## Responses -/

/-- A response to the request with this id: a result, or an error. -/
structure IsResponse (id r : Json) : Prop where
  version : r.get "jsonrpc" = some (.str "2.0")
  id : r.get "id" = some id
  one : (r.get "result").isSome = !(r.get "error").isSome

/-- A response with an error of this code. -/
structure IsError (code : Int) (id r : Json) : Prop extends IsResponse id r where
  code : (r.get "error").bind (Json.get · "code") = some (.int code)

/-- What an entry is answered: a request with its response, if it has an id, and any
    other one with an error. -/
structure Answered (requests : Json → Option Json → Prop) (e : Json) (r : Option Json) : Prop where
  request : ∀ id, requests e (some id) → ∃ v, r = some v ∧ IsResponse id v
  notification : requests e none → r = none
  invalid : (∀ id, ¬requests e id) → ∃ v, r = some v ∧ IsError (-32600) .null v

/-- The answer to a batch: its responses, if there are any. -/
def batchReply (rs : List (Option Json)) : Reply :=
  match rs.reduceOption with
  | [] => .accepted
  | vs => .json (.arr vs)

/-- The reply to an entry by itself. -/
def singleReply : Option Json → Reply
  | none => .accepted
  | some v => .json v

/-- The answers correspond to the entries of bodies, of which some are requests: each
    entry has its own answer, in the order of the entries, and without an invalid one
    its error is missing, unless the batch is empty then. -/
structure Corresponds {σ : Type} (requests : Json → Option Json → Prop)
    (handle : Option Json → σ → Reply × σ) : Prop where
  single : ∀ v s, v.isArray = false →
    ∃ r, Answered requests v r ∧ (handle (some v) s).1 = singleReply r
  empty : ∀ s, ∃ v, IsError (-32600) .null v ∧ handle (some (.arr [])) s = (.json v, s)
  batch : ∀ es s, es ≠ [] → ∃ rs, List.Forall₂ (Answered requests) es rs ∧
    (handle (some (.arr es)) s).1 = batchReply rs
  erase : ∀ es e es' s, (∀ id, ¬requests e id) → es ++ es' ≠ [] → ∃ rs v rs',
    List.Forall₂ (Answered requests) es rs ∧ IsError (-32600) .null v ∧
    List.Forall₂ (Answered requests) es' rs' ∧
    (handle (some (.arr (es ++ e :: es'))) s).1 = batchReply (rs ++ some v :: rs') ∧
    (handle (some (.arr (es ++ es'))) s).1 = batchReply (rs ++ rs') ∧
    (handle (some (.arr (es ++ e :: es'))) s).2 = (handle (some (.arr (es ++ es'))) s).2

/-- A response with this id. -/
inductive Responds (id : Option Json) : JsonRpcResponse → Prop
  | success (result : Json) : Responds id (.success id result)
  | failure (code : Int) (message : String) : Responds id (.failure id code message)

/-- Requests with an id are answered, and those without are not. -/
structure Answering {σ : Type} (dispatchOne : JsonRpcRequest → σ → Outcome × σ) : Prop where
  notification : ∀ req s, req.id = none → (dispatchOne req s).1 = .notification
  response : ∀ req s id, req.id = some id →
    ∃ r, (dispatchOne req s).1 = .response r ∧ Responds (some id) r

section Answers

variable {σ : Type} {texts : Texts} {dispatchOne : JsonRpcRequest → σ → Outcome × σ} {e : Json}
  {id : Option Json}

/-- A success is a response with the id of its request. -/
theorem isResponse_success (id : Option Json) (result : Json) :
    IsResponse (.option (fun id => id) id) (JsonRpcResponse.success id result).toValue := by
  constructor <;>
    simp [JsonRpcResponse.success, JsonRpcResponse.toValue, Json.object, List.orderedInsert,
      Json.get, List.lookup_cons, List.lookup_nil]

theorem isError_failure (id : Option Json) (code : Int) (message : String) :
    IsError code (.option (fun id => id) id) (JsonRpcResponse.failure id code message).toValue := by
  refine ⟨⟨?_, ?_, ?_⟩, ?_⟩ <;>
    simp [JsonRpcResponse.failure, JsonRpcResponse.toValue, Json.object, List.orderedInsert,
      Json.get, List.lookup_cons, List.lookup_nil]

/-- What answers a request is a response with its id. -/
theorem Responds.isResponse {v : Json} {r : JsonRpcResponse} (h : Responds (some v) r) :
    IsResponse v r.toValue := by
  cases h with
  | success result => exact isResponse_success (some v) result
  | failure code message => exact (isError_failure (some v) code message).toIsResponse

/-- An entry that is not a request is inert. -/
theorem outcome_invalid (texts : Texts) (dispatchOne : JsonRpcRequest → σ → Outcome × σ)
    (he : ∀ id, ¬Accepted e id) :
    ∃ message, ∀ s, outcome texts dispatchOne e s = (.parseError message, s) := by
  unfold outcome
  split
  · rename_i req hread
    by_cases hversion : req.jsonrpcVersionIsValid = true
    · by_cases htype : req.idTypeIsValid = true
      · exact absurd ((accepted_iff texts).1 ⟨req, hread, hversion, htype, rfl⟩) (he req.id)
      · exact ⟨_, fun s => by rw [if_neg (not_not.2 hversion), if_pos htype]⟩
    · exact ⟨_, fun s => by rw [if_pos hversion]⟩
  · exact ⟨_, fun s => rfl⟩

/-- A request is dispatched. -/
theorem outcome_accepted (texts : Texts) (dispatchOne : JsonRpcRequest → σ → Outcome × σ)
    (he : Accepted e id) :
    ∃ req : JsonRpcRequest, req.id = id ∧
      ∀ s, outcome texts dispatchOne e s = dispatchOne req s := by
  obtain ⟨req, hread, hversion, htype, hid⟩ := (accepted_iff texts).2 he
  refine ⟨req, hid, fun s => ?_⟩
  unfold outcome
  rw [hread]
  dsimp only
  rw [if_neg (not_not.2 hversion), if_neg (not_not.2 htype)]

/-- An entry is answered as it should be. -/
theorem outcome_answered (h : Answering dispatchOne) (e : Json) (s : σ) :
    Answered Accepted e (outcome texts dispatchOne e s).1.intoResponseValue := by
  refine ⟨fun id he => ?_, fun he => ?_, fun he => ?_⟩
  · obtain ⟨req, hid, hout⟩ := outcome_accepted texts dispatchOne he
    obtain ⟨r, hr, hresponds⟩ := h.response req s id hid
    rw [hout, hr]
    exact ⟨_, rfl, hresponds.isResponse⟩
  · obtain ⟨req, hid, hout⟩ := outcome_accepted texts dispatchOne he
    rw [hout, h.notification req s hid]
    rfl
  · obtain ⟨message, hout⟩ := outcome_invalid texts dispatchOne he
    rw [hout]
    exact ⟨_, rfl, isError_failure none (-32600) message⟩

/-- The answers to a batch, in the order of its entries. -/
def answers (texts : Texts) (dispatchOne : JsonRpcRequest → σ → Outcome × σ) (es : List Json)
    (s : σ) : List (Option Json) :=
  (Batches.serve (outcome texts dispatchOne) es s).1.map Outcome.intoResponseValue

theorem answers_answered (h : Answering dispatchOne) (es : List Json) (s : σ) :
    List.Forall₂ (Answered Accepted) es (answers texts dispatchOne es s) := by
  rw [answers, List.forall₂_map_right_iff]
  exact Batches.forall₂_serve (outcome_answered h) es s

/-- A batch is answered with what its entries are answered with, which are served one after
    the other. -/
theorem handle_batch (es : List Json) (s : σ) (hne : es ≠ []) :
    handle texts dispatchOne (some (.arr es)) s =
      (batchReply (answers texts dispatchOne es s),
        (Batches.serve (outcome texts dispatchOne) es s).2) := by
  have hresponses : (answers texts dispatchOne es s).reduceOption =
      (Batches.serve (outcome texts dispatchOne) es s).1.filterMap Outcome.intoResponseValue := by
    rw [answers, List.reduceOption, List.filterMap_map]
    rfl
  have hempty : es.isEmpty = false := by simpa using hne
  rw [batchReply, hresponses]
  unfold handle
  simp only [Json.isArray, hempty, Bool.and_false, Bool.false_eq_true, if_false, if_true]
  cases (Batches.serve (outcome texts dispatchOne) es s).1.filterMap Outcome.intoResponseValue with
  | nil => rfl
  | cons v vs => rfl

theorem handle_single (v : Json) (s : σ) (hv : v.isArray = false) :
    handle texts dispatchOne (some v) s =
      (singleReply (outcome texts dispatchOne v s).1.intoResponseValue,
        (outcome texts dispatchOne v s).2) := by
  cases hr : (outcome texts dispatchOne v s).1.intoResponseValue with
  | none =>
    cases v with
    | arr vs => cases hv
    | _ => simp [handle, Json.isArray, Batches.serve, hr, singleReply]
  | some r =>
    cases v with
    | arr vs => cases hv
    | _ => simp [handle, Json.isArray, Batches.serve, hr, singleReply]

/-- The answers correspond to the entries. -/
theorem handle_corresponds (h : Answering dispatchOne) :
    Corresponds Accepted (handle texts dispatchOne) := by
  refine ⟨?_, ?_, ?_, ?_⟩
  · intro v s hv
    exact ⟨_, outcome_answered h v s, congrArg Prod.fst (handle_single v s hv)⟩
  · intro s
    exact ⟨_, isError_failure none (-32600) _, rfl⟩
  · intro es s hne
    exact ⟨_, answers_answered h es s, congrArg Prod.fst (handle_batch es s hne)⟩
  · intro es e es' s he hne
    obtain ⟨message, hout⟩ := outcome_invalid texts dispatchOne he
    have hmore : es ++ e :: es' ≠ [] := by simp
    have hinert := Batches.serve_inert hout es es' s
    have happend := Batches.serve_append (f := outcome texts dispatchOne) es es' s
    refine ⟨answers texts dispatchOne es s, _, answers texts dispatchOne es'
      (Batches.serve (outcome texts dispatchOne) es s).2, answers_answered h es s,
      isError_failure none (-32600) message, answers_answered h es' _, ?_, ?_, ?_⟩
    · rw [handle_batch _ s hmore, answers, hinert, List.map_append, List.map_cons]
      rfl
    · rw [handle_batch _ s hne, answers, happend, List.map_append]
      rfl
    · rw [handle_batch _ s hmore, handle_batch _ s hne, hinert, happend]

/-- An array that is read as a request. -/
def positionalPing : Json := .arr [.str "2.0", .int 1, .str "ping"]

theorem positionalPing_accepted : Accepted positionalPing (some (.int 1)) :=
  .inr ⟨.int 1, "ping", [], rfl, rfl, Nat.zero_le 1, .inr (.inl rfl)⟩

/-- Arrays that are read as requests are answered as such, not as invalid ones. -/
theorem not_corresponds_wellFormed (h : Answering dispatchOne) (s : σ) :
    ¬Corresponds WellFormed (handle texts dispatchOne) := by
  intro hwell
  have hne : [positionalPing] ≠ [] := List.cons_ne_nil _ _
  obtain ⟨rs, hrs, hreply⟩ := (handle_corresponds h).batch [positionalPing] s hne
  obtain ⟨rs', hrs', hreply'⟩ := hwell.batch [positionalPing] s hne
  have hinvalid : ∀ id, ¬WellFormed positionalPing id := by
    rintro id ⟨fields, hobj, -⟩
    cases hobj
  obtain ⟨r, _, hr, hnil, rfl⟩ := List.forall₂_cons_left_iff.1 hrs
  obtain ⟨r', _, hr', hnil', rfl⟩ := List.forall₂_cons_left_iff.1 hrs'
  rw [List.forall₂_nil_left_iff.1 hnil] at hreply
  rw [List.forall₂_nil_left_iff.1 hnil'] at hreply'
  obtain ⟨v, rfl, hv⟩ := hr.request _ positionalPing_accepted
  obtain ⟨v', rfl, hv'⟩ := hr'.invalid hinvalid
  -- the same response would have two ids
  have hsame : Reply.json (.arr [v]) = Reply.json (.arr [v']) := hreply.symm.trans hreply'
  cases hsame
  have hid := hv.id.symm.trans hv'.id
  cases hid

end Answers

end LlmMemory.JsonRpc
