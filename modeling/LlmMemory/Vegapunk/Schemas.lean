import LlmMemory.Vegapunk.Handlers

/-!
# The schemas advertised

The input schemas that `tools/list` advertises (`inputSchema`), in a language of
schemas with the meaning that JSON Schema gives it (`Schema.valid`), and what
the builders of the requests make of the arguments that are valid under them. The
documents sent are read in `Advertised`.

The two agree but for what is not `readable`:

* a text that must not be blank may hold, of the characters that `\S` matches,
  only some that count as white space for `trim`;
* an integer may be written as a float, or exceed 32 bits: `offset` has no
  maximum.

* `honoured_iff`: arguments that are valid are accepted, with their numbers, if
  and only if they are readable;
* `refused_iff`: the answer to those that are not accepted.
-/

namespace LlmMemory.Vegapunk

open Effects

/-! ## Numbers -/

/-- The number that decimal digits write. -/
def digitsValue (cs : List Char) : ℕ := cs.foldl (fun n c => 10 * n + (c.toNat - 48)) 0

/-- The number that digits with a sign write. -/
def signedValue : List Char → Int
  | '-' :: cs => -digitsValue cs
  | '+' :: cs => digitsValue cs
  | cs => digitsValue cs

/-- `m` times `10 ^ e`, if that is an integer. -/
def scaled (m : ℕ) (e : Int) : Option ℕ :=
  if 0 ≤ e then some (m * 10 ^ e.toNat)
  else if 10 ^ (-e).toNat ∣ m then some (m / 10 ^ (-e).toNat) else none

/-- The value of the text of a number without sign, if it is an integer. -/
def naturalValue (cs : List Char) : Option ℕ :=
  let mantissa := cs.takeWhile fun c => c ≠ 'e' ∧ c ≠ 'E'
  let exponent := signedValue ((cs.dropWhile fun c => c ≠ 'e' ∧ c ≠ 'E').drop 1)
  let whole := mantissa.takeWhile (· ≠ '.')
  let frac := (mantissa.dropWhile (· ≠ '.')).drop 1
  scaled (digitsValue (whole ++ frac)) (exponent - frac.length)

/-- The value of the text of a number, if it is an integer. -/
def integerValue : List Char → Option Int
  | '-' :: cs => (naturalValue cs).map fun n => -n
  | cs => (naturalValue cs).map fun n => n

/-- The value of a number, however it is written, if it is an integer. -/
def integer? : Json → Option Int
  | .int n => some n
  | .float text => integerValue text.toList
  | _ => none

example : ["10.0", "1.5", "-0.0", "12e1", "120e-1", "1e-1"].map (fun s => integerValue s.toList) =
    [some 10, none, some 0, some 120, some 12, none] := by decide

/-! ## Schemas -/

/-- A schema. A `pattern` is the one that all patterns advertised are, `\S`. -/
inductive Schema
  | str (minLength : ℕ) (pattern : Bool)
  | enum (values : List String)
  | integer (minimum : Int) (maximum : Option Int)
  | array (minItems : ℕ) (items : Schema)
  | object (properties : List (String × Schema)) (required : List String)

/-- The characters that `\s` matches in a pattern. -/
def isPatternSpace (c : Char) : Bool :=
  let n := c.toNat
  (9 ≤ n && n ≤ 13) || n == 32 || n == 0xA0 || n == 0x1680 || (0x2000 ≤ n && n ≤ 0x200A) ||
    n == 0x2028 || n == 0x2029 || n == 0x202F || n == 0x205F || n == 0x3000 || n == 0xFEFF

namespace Schema

mutual

/-- The value is valid under the schema. -/
def valid : Schema → Json → Bool
  | .str minLength pattern, v => match v with
    | .str s => minLength ≤ s.length && (!pattern || s.toList.any (!isPatternSpace ·))
    | _ => false
  | .enum values, v => match v with
    | .str s => s ∈ values
    | _ => false
  | .integer minimum maximum, v => match integer? v with
    | some n => minimum ≤ n && maximum.all (n ≤ ·)
    | none => false
  | .array minItems items, v => match v with
    | .arr vs => minItems ≤ vs.length && vs.all fun v => valid items v
    | _ => false
  | .object properties required, v => match v with
    | .obj fields => required.all (fun name => (fields.lookup name).isSome) &&
        validFields properties fields
    | _ => false

/-- The fields that are there are valid. -/
def validFields : List (String × Schema) → Fields → Bool
  | [], _ => true
  | (name, s) :: properties, fields =>
      (fields.lookup name).all (fun v => valid s v) && validFields properties fields

end

mutual

/-- The value is one that the builders of the requests read, if it is valid: a
    text with the pattern, if it is needed, is more than white space for `trim`
    too, and an integer is written as one, and has 32 bits. -/
def readable (needed : Bool) : Schema → Json → Bool
  | .str _ pattern, v => match v with
    | .str s => !(needed && pattern) || trimmed s ≠ ""
    | _ => true
  | .enum _, _ => true
  | .integer _ _, v => match v with
    | .int n => n < 2 ^ 31
    | _ => false
  | .array _ items, v => match v with
    | .arr vs => vs.all fun v => readable true items v
    | _ => true
  | .object properties required, v => match v with
    | .obj fields => readableFields required properties fields
    | _ => true

/-- The fields that are there are readable. -/
def readableFields (required : List String) : List (String × Schema) → Fields → Bool
  | [], _ => true
  | (name, s) :: properties, fields =>
      (fields.lookup name).all (fun v => readable (name ∈ required) s v) &&
        readableFields required properties fields

end

end Schema

/-! ## The tools -/

/-- A text that must not be blank. -/
def nonBlank : Schema := .str 1 true

/-- Any text. -/
def anyText : Schema := .str 0 false

/-- A filter of a query. -/
def filterSchema : Schema :=
  .object [("key", nonBlank), ("op", .enum ATTRIBUTE_FILTER_VALID_OPS), ("value", anyText)]
    ["key", "op", "value"]

/-- The metadata of a message. -/
def messageMetadataSchema : Schema :=
  .object [("source_type", nonBlank), ("author", nonBlank), ("author_id", anyText),
    ("channel", nonBlank), ("channel_id", anyText), ("thread_id", anyText),
    ("timestamp", nonBlank)] ["source_type", "author", "channel", "timestamp"]

/-- A message of an ingestion. -/
def messageSchema : Schema :=
  .object [("id", anyText), ("text", nonBlank), ("metadata", messageMetadataSchema)]
    ["text", "metadata"]

/-- The metadata of a raw ingestion. -/
def rawMetadataSchema : Schema :=
  .object [("source_type", nonBlank), ("author", anyText), ("channel", anyText),
    ("timestamp", nonBlank)] ["source_type"]

/-- The input schema of a tool. -/
def inputSchema : ToolName → Schema
  | .search => .object [("query", nonBlank), ("mode", .enum SEARCH_VALID_MODES),
      ("limit", .integer SEARCH_LIMIT_MIN (some SEARCH_LIMIT_MAX))] ["query"]
  | .ingest => .object [("messages", .array 1 messageSchema)] ["messages"]
  | .ingestRaw => .object [("text", nonBlank), ("metadata", rawMetadataSchema)]
      ["text", "metadata"]
  | .queryNodes => .object [("node_type", nonBlank), ("filters", .array 0 filterSchema),
      ("sort_by", nonBlank), ("sort_order", .enum QUERY_NODES_VALID_SORT_ORDERS),
      ("limit", .integer QUERY_NODES_LIMIT_MIN (some QUERY_NODES_LIMIT_MAX)),
      ("offset", .integer 0 none)] ["node_type"]
  | .getSchema => .object [] []
  | .listSchemas => .object [] []
  | .stats => .object [("node_type", nonBlank), ("filters", .array 0 filterSchema)] []
  | .getTraceableChain => .object [("node_id", nonBlank), ("max_depth",
      .integer TRACEABLE_CHAIN_MAX_DEPTH_MIN (some TRACEABLE_CHAIN_MAX_DEPTH_MAX))] ["node_id"]
  | .feedback => .object [("search_id", nonBlank), ("rating", .integer 1 (some 5)),
      ("comment", anyText)] ["search_id", "rating"]
  | .getJobStatus => .object [("msg_id", nonBlank)] ["msg_id"]

/-- The numbers of the request that is read from the arguments of a tool, by
    the names of their fields. -/
def requestNumbers (U : Unicode) (userSchema : String) (args : Json) :
    ToolName → Except String (List (String × Option Int))
  | .search => (buildSearchRequest U userSchema args).map fun r => [("limit", r.topK)]
  | .ingest => (buildIngestRequest userSchema args).map fun _ => []
  | .ingestRaw => (buildIngestRawRequest userSchema args).map fun _ => []
  | .queryNodes => (buildQueryNodesRequest U userSchema args).map fun r =>
      [("limit", r.limit), ("offset", r.offset)]
  | .getSchema => .ok []
  | .listSchemas => .ok []
  | .stats => (buildGetStatsRequest U userSchema args).map fun _ => []
  | .getTraceableChain => (buildGetTraceableChainRequest userSchema args).map fun r =>
      [("max_depth", r.maxDepth)]
  | .feedback => (readFeedback args).map fun r => [("rating", some r.rating)]
  | .getJobStatus => (readMsgId args).map fun _ => []

/-- The number given in a field of the arguments. -/
def given (args : Json) (name : String) : Option Int :=
  ((asObject args).bind (·.lookup name)).bind integer?

/-- The arguments are accepted, and the request has the numbers given. -/
def Honoured (U : Unicode) (userSchema : String) (args : Json) (tool : ToolName) : Prop :=
  ∃ numbers, requestNumbers U userSchema args tool = .ok numbers ∧
    ∀ x ∈ numbers, ∀ n, given args x.1 = some n → x.2 = some n

/-! ## Reading -/

/-- The computation succeeds, with a result in `P`. -/
def Accepts {α : Type} (x : Except String α) (P : α → Prop) : Prop := ∃ a, x = .ok a ∧ P a

section Accepts

variable {α β : Type} {P : α → Prop}

/-- A success is accepted for its result. -/
@[simp] theorem accepts_ok {a : α} : Accepts (.ok a) P ↔ P a := by simp [Accepts]

@[simp] theorem accepts_error {e : String} : ¬Accepts (.error e) P := by simp [Accepts]

/-- What must be there is accepted if it is. -/
@[simp] theorem accepts_okOr {x : Option α} {message : String} :
    Accepts (okOr x message) P ↔ ∃ a, x = some a ∧ P a := by
  cases x <;> simp [okOr]

/-- One computation after the other. -/
theorem accepts_bind {x : Except String β} {f : β → Except String α} :
    Accepts (x >>= f) P ↔ Accepts x fun b => Accepts (f b) P := by
  cases x with
  | ok b => simp [bind, Except.bind]
  | error e => simp [bind, Except.bind]

theorem accepts_map {x : Except String β} {f : β → α} :
    Accepts (x.map f) P ↔ Accepts x fun b => P (f b) := by
  cases x <;> simp [Except.map]

end Accepts

section Fields

variable {fields : Fields} {name owner : String} {Q : Prop}

/-- The value of a field that must hold a text, in valid arguments. -/
theorem exists_text {minLength : ℕ} {pattern : Bool} (hr : (fields.lookup name).isSome = true)
    (hv : (fields.lookup name).all (fun v => (Schema.str minLength pattern).valid v) = true) :
    ∃ s, fields.lookup name = some (.str s) := by
  obtain ⟨v, hv'⟩ := Option.isSome_iff_exists.1 hr
  rw [hv'] at hv
  cases v with
  | str s => exact ⟨s, hv'⟩
  | _ => simp [Schema.valid] at hv

/-- A text that is needed is read if it is readable. -/
theorem accepts_requireStr (hr : (fields.lookup name).isSome = true)
    (hv : (fields.lookup name).all (fun v => nonBlank.valid v) = true) :
    Accepts (requireStrField fields name owner) (fun _ => Q) ↔
      (fields.lookup name).all (fun v => nonBlank.readable true v) = true ∧ Q := by
  obtain ⟨s, hs⟩ := exists_text hr hv
  simp only [requireStrField, present, hs, accepts_bind, okOr, accepts_ok, Json.asString]
  by_cases hblank : trimmed s = ""
  · simp [hblank, nonBlank, Schema.readable]
  · simp [hblank, nonBlank, Schema.readable]

/-- So is an id. -/
theorem exists_id (hr : (fields.lookup name).isSome = true)
    (hv : (fields.lookup name).all (fun v => nonBlank.valid v) = true) :
    (∃ a, (((fields.lookup name).bind Json.asString).map trimmed).filter (· ≠ "") = some a ∧ Q) ↔
      (fields.lookup name).all (fun v => nonBlank.readable true v) = true ∧ Q := by
  obtain ⟨s, hs⟩ := exists_text hr hv
  by_cases hblank : trimmed s = ""
  · simp [hs, Json.asString, hblank, nonBlank, Schema.readable]
  · simp [hs, Json.asString, hblank, nonBlank, Schema.readable, Option.filter]

/-- A text that may be missing is always read. -/
theorem accepts_optionalStr {minLength : ℕ} {pattern : Bool}
    (hv : (fields.lookup name).all (fun v => (Schema.str minLength pattern).valid v) = true) :
    Accepts (optionalStrField fields name owner) (fun _ => Q) ↔ Q := by
  cases hl : fields.lookup name with
  | none => simp [optionalStrField, present, hl]
  | some v =>
    obtain ⟨s, hs⟩ := exists_text (by rw [hl]; rfl) hv
    simp [optionalStrField, present, hs, Json.asString, accepts_bind]

/-- One of the values of an enumeration is read. -/
theorem accepts_enum {U : Unicode} {label default : String} {values : List String}
    (hd : default ∈ values)
    (hv : (fields.lookup name).all (fun v => (Schema.enum values).valid v) = true) :
    Accepts (enumField U fields name label default values) (fun _ => Q) ↔ Q := by
  cases hl : fields.lookup name with
  | none =>
    have hread : enumField U fields name label default values = .ok default := by
      simp only [enumField, present, hl]
      exact if_pos hd
    rw [hread, accepts_ok]
  | some v =>
    rw [hl] at hv
    cases v with
    | str s =>
      have hs : s ∈ values := by simpa [Schema.valid] using hv
      simp [enumField, present, hl, Json.asString, accepts_bind, hs]
    | _ => simp [Schema.valid] at hv

/-- An integer that is readable is read, and is the number given. -/
theorem accepts_bounded {label : String} {min max : Int} {maximum default : Option Int}
    {P : Option Int → Prop} (hmin : 0 ≤ min)
    (hmax : ∀ n : Int, maximum.all (n ≤ ·) → (n ≤ max ↔ n < 2 ^ 31))
    (hv : (fields.lookup name).all (fun v => (Schema.integer min maximum).valid v) = true) :
    Accepts (boundedField fields name label min max default) P ↔
      (fields.lookup name).all (fun v => (Schema.integer min maximum).readable false v) = true ∧
        P (((fields.lookup name).bind integer?).or default) := by
  cases hl : fields.lookup name with
  | none => simp [boundedField, present, hl]
  | some v =>
    rw [hl] at hv
    cases v with
    | int n =>
      have hn : min ≤ n ∧ maximum.all (n ≤ ·) = true := by simpa [Schema.valid, integer?] using hv
      have hi := hmax n hn.2
      by_cases hlt : n < 2 ^ 31
      · have hread : (Schema.integer min maximum).readable false (.int n) = true :=
          decide_eq_true hlt
        have h64 : (Json.int n).asI64 = some n := if_pos (by omega)
        simp [boundedField, present, hl, h64, accepts_bind, hn.1, hi.2 hlt, hread, integer?]
      · have hread : (Schema.integer min maximum).readable false (.int n) = false :=
          decide_eq_false hlt
        have hgt : ¬ n ≤ max := fun h => hlt (hi.1 h)
        by_cases h64 : -2 ^ 63 ≤ n ∧ n < 2 ^ 63
        · have h64 : (Json.int n).asI64 = some n := if_pos h64
          simp [boundedField, present, hl, h64, accepts_bind, hgt, hread]
        · have h64 : (Json.int n).asI64 = none := if_neg h64
          simp [boundedField, present, hl, h64, accepts_bind, hread]
    | float text =>
      simp [boundedField, present, hl, Json.asI64, accepts_bind, Schema.readable]
    | _ => simp [Schema.valid, integer?] at hv

end Fields

/-! ## Requests -/

section Requests

variable {U : Unicode} {userSchema : String} {args : Json} {Q : Prop}

/-- What is valid under the schema of an object. -/
theorem valid_object {properties : List (String × Schema)} {required : List String} {v : Json}
    (h : (Schema.object properties required).valid v = true) :
    ∃ fields, v = .obj fields ∧ (∀ name ∈ required, (fields.lookup name).isSome = true) ∧
      Schema.validFields properties fields = true := by
  cases v with
  | obj fields =>
    rw [Schema.valid, Bool.and_eq_true, List.all_eq_true] at h
    exact ⟨fields, rfl, h.1, h.2⟩
  | _ => simp [Schema.valid] at h

theorem valid_array {minItems : ℕ} {items : Schema} {v : Json}
    (h : (Schema.array minItems items).valid v = true) :
    ∃ vs, v = .arr vs ∧ minItems ≤ vs.length ∧ ∀ v ∈ vs, items.valid v = true := by
  cases v with
  | arr vs =>
    rw [Schema.valid, Bool.and_eq_true, List.all_eq_true, decide_eq_true_iff] at h
    exact ⟨vs, rfl, h.1, h.2⟩
  | _ => simp [Schema.valid] at h

/-- Whatever may be missing is readable. -/
@[simp] theorem readable_unneeded {v : Json} : nonBlank.readable false v = true := by
  cases v <;> simp [nonBlank, Schema.readable]

@[simp] theorem readable_anyText {needed : Bool} {v : Json} : anyText.readable needed v = true := by
  cases v <;> simp [anyText, Schema.readable]

/-- A value of an enumeration is readable. -/
@[simp] theorem readable_enum {needed : Bool} {values : List String} {v : Json} :
    (Schema.enum values).readable needed v = true := rfl

@[simp] theorem all_const {α : Type} {x : Option α} : x.all (fun _ => true) = true := by
  cases x <;> rfl

/-- A raw ingestion is read if it is readable. -/
theorem accepts_ingestRaw (hv : (inputSchema .ingestRaw).valid args = true) :
    Accepts (buildIngestRawRequest userSchema args) (fun _ => Q) ↔
      (inputSchema .ingestRaw).readable true args = true ∧ Q := by
  obtain ⟨fields, rfl, hreq, hprops⟩ := valid_object hv
  simp only [Schema.validFields, Bool.and_eq_true, and_true] at hprops
  obtain ⟨htext, hmeta⟩ := hprops
  obtain ⟨v, hl⟩ := Option.isSome_iff_exists.1 (hreq "metadata" (by simp))
  rw [hl, Option.all_some] at hmeta
  obtain ⟨mfields, rfl, hmreq, hmprops⟩ := valid_object hmeta
  simp only [Schema.validFields, Bool.and_eq_true, and_true] at hmprops
  obtain ⟨hsource, hauthor, hchannel, htime⟩ := hmprops
  simp only [buildIngestRawRequest, requireObjectArgs, asObject, accepts_bind, accepts_okOr,
    Option.some.injEq, exists_eq_left', accepts_ok, hl, accepts_optionalStr hauthor,
    accepts_optionalStr hchannel, accepts_optionalStr htime,
    accepts_requireStr (hmreq "source_type" (by simp)) hsource,
    accepts_requireStr (hreq "text" (by simp)) htext]
  simp [inputSchema, rawMetadataSchema, Schema.readable, Schema.readableFields, hl, and_assoc]

theorem accepts_metadata {fields : Fields} {owner : String}
    (hv : messageMetadataSchema.valid (.obj fields) = true) :
    Accepts (buildMetadata fields owner) (fun _ => Q) ↔
      messageMetadataSchema.readable true (.obj fields) = true ∧ Q := by
  obtain ⟨_, ⟨⟩, hreq, hprops⟩ := valid_object hv
  simp only [Schema.validFields, Bool.and_eq_true, and_true] at hprops
  obtain ⟨hsource, hauthor, hauthorId, hchannel, hchannelId, hthread, htime⟩ := hprops
  simp only [buildMetadata, accepts_bind, accepts_ok, accepts_optionalStr hauthorId,
    accepts_optionalStr hchannelId, accepts_optionalStr hthread,
    accepts_requireStr (hreq "source_type" (by simp)) hsource,
    accepts_requireStr (hreq "author" (by simp)) hauthor,
    accepts_requireStr (hreq "channel" (by simp)) hchannel,
    accepts_requireStr (hreq "timestamp" (by simp)) htime]
  simp [messageMetadataSchema, Schema.readable, Schema.readableFields, and_assoc]

theorem accepts_message {i : ℕ} {item : Json} (hv : messageSchema.valid item = true) :
    Accepts (buildMessage i item) (fun _ => Q) ↔ messageSchema.readable true item = true ∧ Q := by
  obtain ⟨fields, rfl, hreq, hprops⟩ := valid_object hv
  simp only [Schema.validFields, Bool.and_eq_true, and_true] at hprops
  obtain ⟨hid, htext, hmeta⟩ := hprops
  obtain ⟨v, hl⟩ := Option.isSome_iff_exists.1 (hreq "metadata" (by simp))
  rw [hl, Option.all_some] at hmeta
  obtain ⟨mfields, rfl, -⟩ := valid_object hmeta
  simp only [buildMessage, asObject, accepts_bind, accepts_okOr, Option.some.injEq,
    exists_eq_left', accepts_ok, hl, accepts_optionalStr hid, accepts_metadata hmeta,
    accepts_requireStr (hreq "text" (by simp)) htext]
  simp [messageSchema, Schema.readable, Schema.readableFields, hl, and_assoc]

/-- All messages are read, if each of them is readable. -/
theorem accepts_messages {items : List Json} (hv : ∀ v ∈ items, messageSchema.valid v = true)
    (i : ℕ) : Accepts (buildMessages i items) (fun _ => Q) ↔
      items.all (fun v => messageSchema.readable true v) = true ∧ Q := by
  induction items generalizing i Q with
  | nil => simp [buildMessages]
  | cons item items ih =>
    rw [List.forall_mem_cons] at hv
    simp only [buildMessages, accepts_bind, accepts_ok, ih hv.2, accepts_message hv.1,
      List.all_cons, Bool.and_eq_true, and_assoc]

theorem accepts_ingest (hv : (inputSchema .ingest).valid args = true) :
    Accepts (buildIngestRequest userSchema args) (fun _ => Q) ↔
      (inputSchema .ingest).readable true args = true ∧ Q := by
  obtain ⟨fields, rfl, hreq, hprops⟩ := valid_object hv
  simp only [Schema.validFields, Bool.and_eq_true, and_true] at hprops
  obtain ⟨v, hl⟩ := Option.isSome_iff_exists.1 (hreq "messages" (by simp))
  rw [hl, Option.all_some] at hprops
  obtain ⟨items, rfl, hlen, hitems⟩ := valid_array hprops
  have hne : items ≠ [] := List.length_pos_iff.1 hlen
  simp only [buildIngestRequest, requireObjectArgs, asObject, asArray, accepts_bind, accepts_okOr,
    Option.some.injEq, exists_eq_left', accepts_ok, hl, if_neg hne, accepts_messages hitems]
  simp [inputSchema, Schema.readable, Schema.readableFields, hl]

/-! ### Filters -/

theorem accepts_filter {owner : String} {item : Json} (hv : filterSchema.valid item = true) :
    Accepts (buildAttributeFilter U item owner) (fun _ => Q) ↔
      filterSchema.readable true item = true ∧ Q := by
  obtain ⟨fields, rfl, hreq, hprops⟩ := valid_object hv
  simp only [Schema.validFields, Bool.and_eq_true, and_true] at hprops
  obtain ⟨hkey, hop, hvalue⟩ := hprops
  obtain ⟨value, hval⟩ := exists_text (hreq "value" (by simp)) hvalue
  obtain ⟨v, hl⟩ := Option.isSome_iff_exists.1 (hreq "op" (by simp))
  obtain ⟨op, rfl, hmem⟩ : ∃ op, v = .str op ∧ op ∈ ATTRIBUTE_FILTER_VALID_OPS := by
    rw [hl] at hop
    cases v with
    | str op => exact ⟨op, rfl, by simpa [Schema.valid] using hop⟩
    | _ => simp [Schema.valid] at hop
  -- the operators are free of white space
  have htrim : ∀ op ∈ ATTRIBUTE_FILTER_VALID_OPS, trimmed op = op ∧ op ≠ "" := by
    decide
  have hread : requireStrField fields "op" owner = .ok op := by
    obtain ⟨ht, hne⟩ := htrim op hmem
    simp [requireStrField, present, hl, okOr, Json.asString, ht, hne, bind, Except.bind]
  simp only [buildAttributeFilter, asObject, present, accepts_bind, accepts_okOr,
    Option.some.injEq, exists_eq_left', accepts_ok, hread, if_pos hmem, hval, Json.asString,
    accepts_requireStr (hreq "key" (by simp)) hkey]
  simp [filterSchema, Schema.readable, Schema.readableFields]

/-- All filters are read, if each of them is readable. -/
theorem accepts_filterList {owner : String} {items : List Json}
    (hv : ∀ v ∈ items, filterSchema.valid v = true) (i : ℕ) :
    Accepts (buildFilterList U owner i items) (fun _ => Q) ↔
      items.all (fun v => filterSchema.readable true v) = true ∧ Q := by
  induction items generalizing i Q with
  | nil => simp [buildFilterList]
  | cons item items ih =>
    rw [List.forall_mem_cons] at hv
    simp only [buildFilterList, accepts_bind, accepts_ok, ih hv.2, accepts_filter hv.1,
      List.all_cons, Bool.and_eq_true, and_assoc]

theorem accepts_filters {fields : Fields} {owner : String}
    (hv : (fields.lookup "filters").all (fun v => (Schema.array 0 filterSchema).valid v) = true) :
    Accepts (buildAttributeFiltersFrom U fields owner) (fun _ => Q) ↔
      (fields.lookup "filters").all
        (fun v => (Schema.array 0 filterSchema).readable false v) = true ∧ Q := by
  cases hl : fields.lookup "filters" with
  | none => simp [buildAttributeFiltersFrom, present, hl]
  | some v =>
    rw [hl] at hv
    obtain ⟨items, rfl, -, hitems⟩ := valid_array hv
    simp only [buildAttributeFiltersFrom, present, hl, accepts_bind, accepts_okOr, asArray,
      Option.some.injEq, exists_eq_left', accepts_filterList hitems, Option.all_some,
      Schema.readable]

/-! ### The numbers given -/

/-- A number that is given takes the place of the default. -/
theorem or_given {x default : Option Int} :
    (∀ n, x = some n → x.or default = some n) ↔ True := by
  refine iff_true_intro fun n hn => ?_
  rw [hn]
  rfl

/-- A number up to a bound below `2 ^ 31` is an `i32`. -/
theorem bounds {max : Int} (h : max < 2 ^ 31) (n : Int) (hn : (some max).all (n ≤ ·) = true) :
    n ≤ max ↔ n < 2 ^ 31 := by
  simp only [Option.all_some, decide_eq_true_eq] at hn
  omega

/-- A search is honoured if it is readable. -/
theorem search_iff (hv : (inputSchema .search).valid args = true) :
    Honoured U userSchema args .search ↔ (inputSchema .search).readable true args = true := by
  obtain ⟨fields, rfl, hreq, hprops⟩ := valid_object hv
  simp only [Schema.validFields, Bool.and_eq_true, and_true] at hprops
  obtain ⟨hquery, hmode, hlimit⟩ := hprops
  have hd : SEARCH_MODE_DEFAULT ∈ SEARCH_VALID_MODES := by decide
  change Accepts ((buildSearchRequest U userSchema (.obj fields)).map _) _ ↔ _
  simp only [buildSearchRequest, requireObjectArgs, asObject, accepts_map, accepts_bind,
    accepts_okOr, accepts_ok, Option.some.injEq, exists_eq_left', accepts_enum hd hmode,
    exists_id (hreq "query" (by simp)) hquery,
    accepts_bounded (by decide) (bounds (by decide)) hlimit, List.forall_mem_singleton, given,
    Option.bind_some, or_given]
  simp [inputSchema, Schema.readable, Schema.readableFields]

/-- A query of nodes is honoured if it is readable, its offset among the rest. -/
theorem queryNodes_iff (hv : (inputSchema .queryNodes).valid args = true) :
    Honoured U userSchema args .queryNodes ↔
      (inputSchema .queryNodes).readable true args = true := by
  obtain ⟨fields, rfl, hreq, hprops⟩ := valid_object hv
  simp only [Schema.validFields, Bool.and_eq_true, and_true] at hprops
  obtain ⟨htype, hfilters, hsort, horder, hlimit, hoffset⟩ := hprops
  have hd : QUERY_NODES_SORT_ORDER_DEFAULT ∈ QUERY_NODES_VALID_SORT_ORDERS := by decide
  -- the schema has no maximum, but a request holds 32 bits
  have hmax : ∀ n : Int, (none : Option Int).all (n ≤ ·) = true → (n ≤ 2 ^ 31 - 1 ↔ n < 2 ^ 31) :=
    fun n _ => by omega
  change Accepts ((buildQueryNodesRequest U userSchema (.obj fields)).map _) _ ↔ _
  simp only [buildQueryNodesRequest, optionalBoundedI32, requireObjectArgs, asObject, accepts_map,
    accepts_bind, accepts_okOr, accepts_ok, Option.some.injEq, exists_eq_left',
    accepts_enum hd horder, accepts_optionalStr hsort, accepts_filters hfilters,
    accepts_requireStr (hreq "node_type" (by simp)) htype,
    accepts_bounded (by decide) (bounds (by decide)) hlimit,
    accepts_bounded (by decide) hmax hoffset, List.forall_mem_cons, given,
    Option.bind_some, or_given]
  simp [inputSchema, Schema.readable, Schema.readableFields]

theorem getTraceableChain_iff (hv : (inputSchema .getTraceableChain).valid args = true) :
    Honoured U userSchema args .getTraceableChain ↔
      (inputSchema .getTraceableChain).readable true args = true := by
  obtain ⟨fields, rfl, hreq, hprops⟩ := valid_object hv
  simp only [Schema.validFields, Bool.and_eq_true, and_true] at hprops
  obtain ⟨hnode, hdepth⟩ := hprops
  change Accepts ((buildGetTraceableChainRequest userSchema (.obj fields)).map _) _ ↔ _
  simp only [buildGetTraceableChainRequest, optionalBoundedI32, requireObjectArgs, asObject,
    accepts_map, accepts_bind, accepts_okOr, accepts_ok, Option.some.injEq, exists_eq_left',
    accepts_requireStr (hreq "node_id" (by simp)) hnode,
    accepts_bounded (by decide) (bounds (by decide)) hdepth, List.forall_mem_singleton, given,
    Option.bind_some, or_given]
  simp [inputSchema, Schema.readable, Schema.readableFields]

theorem stats_iff (hv : (inputSchema .stats).valid args = true) :
    Honoured U userSchema args .stats ↔ (inputSchema .stats).readable true args = true := by
  obtain ⟨fields, rfl, hreq, hprops⟩ := valid_object hv
  simp only [Schema.validFields, Bool.and_eq_true, and_true] at hprops
  obtain ⟨htype, hfilters⟩ := hprops
  change Accepts ((buildGetStatsRequest U userSchema (.obj fields)).map _) _ ↔ _
  simp only [buildGetStatsRequest, requireObjectArgs, asObject, accepts_map, accepts_bind,
    accepts_okOr, accepts_ok, Option.some.injEq, exists_eq_left', accepts_optionalStr htype,
    accepts_filters hfilters]
  simp [inputSchema, Schema.readable, Schema.readableFields]

theorem getJobStatus_iff (hv : (inputSchema .getJobStatus).valid args = true) :
    Honoured U userSchema args .getJobStatus ↔
      (inputSchema .getJobStatus).readable true args = true := by
  obtain ⟨fields, rfl, hreq, hprops⟩ := valid_object hv
  simp only [Schema.validFields, Bool.and_eq_true, and_true] at hprops
  change Accepts ((readMsgId (.obj fields)).map _) _ ↔ _
  simp only [readMsgId, idField, asObject, accepts_map, accepts_bind, accepts_okOr,
    Option.some.injEq, exists_eq_left', exists_id (hreq "msg_id" (by simp)) hprops]
  simp [inputSchema, Schema.readable, Schema.readableFields]

/-- A comment is read, if it is a text. -/
theorem accepts_comment {fields : Fields}
    (hv : (fields.lookup "comment").all (fun v => anyText.valid v) = true) :
    Accepts (commentField fields) (fun _ => Q) ↔ Q := by
  cases hl : fields.lookup "comment" with
  | none => simp [commentField, hl]
  | some v =>
    obtain ⟨s, hs⟩ := exists_text (by rw [hl]; rfl) hv
    simp [commentField, hs]

/-- A rating that is readable is read, and is the number given. -/
theorem exists_rating {fields : Fields} (hr : (fields.lookup "rating").isSome = true)
    (hv : (fields.lookup "rating").all (fun v => (Schema.integer 1 (some 5)).valid v) = true) :
    (∃ a, ((fields.lookup "rating").bind Json.asI64).filter (fun n => 1 ≤ n ∧ n ≤ 5) = some a ∧
      ∀ n, (fields.lookup "rating").bind integer? = some n → some a = some n) ↔
      (fields.lookup "rating").all (fun v => (Schema.integer 1 (some 5)).readable true v) = true := by
  obtain ⟨v, hl⟩ := Option.isSome_iff_exists.1 hr
  rw [hl] at hv ⊢
  cases v with
  | int n =>
    have hn : 1 ≤ n ∧ n ≤ 5 := by simpa [Schema.valid, integer?] using hv
    have h64 : (Json.int n).asI64 = some n := if_pos (by omega)
    have hread : (Schema.integer 1 (some 5)).readable true (.int n) = true :=
      decide_eq_true (by omega)
    simp [h64, hn, integer?, hread]
  | float text => simp [Json.asI64, Schema.readable]
  | _ => simp [Schema.valid, integer?] at hv

/-- Feedback is honoured if it is readable. -/
theorem feedback_iff (hv : (inputSchema .feedback).valid args = true) :
    Honoured U userSchema args .feedback ↔ (inputSchema .feedback).readable true args = true := by
  obtain ⟨fields, rfl, hreq, hprops⟩ := valid_object hv
  simp only [Schema.validFields, Bool.and_eq_true, and_true] at hprops
  obtain ⟨hsearch, hrating, hcomment⟩ := hprops
  change Accepts ((readFeedback (.obj fields)).map _) _ ↔ _
  simp only [readFeedback, idField, asObject, accepts_map, accepts_bind, accepts_okOr, accepts_ok,
    Option.some.injEq, exists_eq_left', List.forall_mem_singleton, given, Option.bind_some,
    accepts_comment hcomment, exists_id (hreq "search_id" (by simp)) hsearch]
  have hiff := exists_rating (hreq "rating" (by simp)) hrating
  have hread : (inputSchema .feedback).readable true (.obj fields) = true ↔
      (fields.lookup "search_id").all (fun v => nonBlank.readable true v) = true ∧
      (fields.lookup "rating").all (fun v => (Schema.integer 1 (some 5)).readable true v) = true := by
    simp [inputSchema, Schema.readable, Schema.readableFields]
  simp only [Option.some.injEq] at hiff
  rw [hread, hiff]

/-- Arguments that are valid under the schema of a tool are accepted, with the
    numbers given, if and only if they are readable. -/
theorem honoured_iff (tool : ToolName) (hv : (inputSchema tool).valid args = true) :
    Honoured U userSchema args tool ↔ (inputSchema tool).readable true args = true := by
  cases tool with
  | search => exact search_iff hv
  | queryNodes => exact queryNodes_iff hv
  | stats => exact stats_iff hv
  | getTraceableChain => exact getTraceableChain_iff hv
  | feedback => exact feedback_iff hv
  | getJobStatus => exact getJobStatus_iff hv
  | ingest =>
    change Accepts ((buildIngestRequest userSchema args).map _) _ ↔ _
    simp only [accepts_map, List.not_mem_nil, false_implies, implies_true, accepts_ingest hv,
      and_true]
  | ingestRaw =>
    change Accepts ((buildIngestRawRequest userSchema args).map _) _ ↔ _
    simp only [accepts_map, List.not_mem_nil, false_implies, implies_true, accepts_ingestRaw hv,
      and_true]
  | getSchema =>
    obtain ⟨fields, rfl, -⟩ := valid_object hv
    exact iff_of_true ⟨[], rfl, by simp⟩ rfl
  | listSchemas =>
    obtain ⟨fields, rfl, -⟩ := valid_object hv
    exact iff_of_true ⟨[], rfl, by simp⟩ rfl

/-- A tool whose arguments are read first, and which then does something. -/
theorem built_refused {α : Type} {x : Except String α} {f : α → Tool Json} {tool : String}
    (hf : ∀ r, ∃ o k, f r = Prog.op o k) :
    (∃ method reason, (built tool x >>= f) = answer (invalidArgsContent method reason)) ↔
      ∃ e, x = .error e := by
  cases x with
  | error e => exact iff_of_true ⟨tool, e, rfl⟩ ⟨e, rfl⟩
  | ok r =>
    obtain ⟨o, k, hr⟩ := hf r
    refine iff_of_false ?_ fun ⟨e, h⟩ => by cases h
    rintro ⟨method, reason, h⟩
    have hop : Prog.op o k = _ := hr.symm.trans h
    cases hop

/-- A result that is mapped is an error only if it was one. -/
theorem exists_error_map {α β : Type} {x : Except String α} {f : α → β} :
    (∃ e, x.map f = .error e) ↔ ∃ e, x = .error e := by
  cases x <;> simp [Except.map]

/-- The handler of a tool answers that its arguments are invalid if they are not
    accepted, and only then. -/
theorem refused_iff {cfg : Config} {user : AuthenticatedUser} (tool : ToolName) :
    (∃ method reason, runTool cfg user args tool = answer (invalidArgsContent method reason)) ↔
      ∃ e, requestNumbers cfg.unicode user.vegapunkSchema args tool = .error e := by
  cases tool with
  | getSchema | listSchemas =>
    refine iff_of_false ?_ fun ⟨e, h⟩ => by cases h
    rintro ⟨method, reason, h⟩
    cases h
  | _ => exact (built_refused fun r => ⟨_, _, rfl⟩).trans exists_error_map.symm

end Requests

/-! ### What is valid and refused -/

/-- A page of the nodes after the first `offset`. -/
def nodesFrom (offset : Int) : Json :=
  .obj [("node_type", .str "Message"), ("offset", .int offset)]

/-- The greatest offset is honoured. -/
theorem honoured_iff_offset : Honoured .ascii "u1" (nodesFrom 2147483647) .queryNodes :=
  (honoured_iff .queryNodes (by decide)).2 (by decide)

/-- An offset too large, an integer written as a float, and a text of nothing but
    U+0085 are valid, and refused. -/
theorem valid_refused :
    ((inputSchema .queryNodes).valid (nodesFrom 2147483648) = true ∧
      ¬Honoured .ascii "u1" (nodesFrom 2147483648) .queryNodes) ∧
    ((inputSchema .search).valid (.obj [("query", .str "q"), ("limit", .float "10.0")]) = true ∧
      ¬Honoured .ascii "u1" (.obj [("query", .str "q"), ("limit", .float "10.0")]) .search) ∧
    ((inputSchema .getJobStatus).valid (.obj [("msg_id", .str "\u0085")]) = true ∧
      ¬Honoured .ascii "u1" (.obj [("msg_id", .str "\u0085")]) .getJobStatus) := by
  have hoffset : (inputSchema .queryNodes).valid (nodesFrom 2147483648) = true := by
    decide
  have hlimit : (inputSchema .search).valid
      (.obj [("query", .str "q"), ("limit", .float "10.0")]) = true := by decide
  have hid : (inputSchema .getJobStatus).valid (.obj [("msg_id", .str "\u0085")]) = true := by
    decide
  refine ⟨⟨hoffset, fun h => ?_⟩, ⟨hlimit, fun h => ?_⟩, hid, fun h => ?_⟩
  · exact absurd ((queryNodes_iff hoffset).1 h) (by decide)
  · exact absurd ((search_iff hlimit).1 h) (by decide)
  · exact absurd ((getJobStatus_iff hid).1 h) (by decide)

end LlmMemory.Vegapunk
