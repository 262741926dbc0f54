import LlmMemory.Vegapunk.Schemas
import LlmMemory.Vegapunk.Transport

/-!
# What the schemas advertised mean

The document that `tools/list` sends with a tool is a JSON schema. A value meets it
(`admits`) if all of its keywords hold of the value; a `description` or a `default` asks
nothing. The documents of the tools are met by the values that are valid under their
schemas (`Means`), whatever the tool (`toolInputSchema_means`), so that what is said of
valid arguments is said of those that a client checked.
-/

namespace LlmMemory.Vegapunk

open Vegapunk.Transport JsonRpc

/-! ## Keywords -/

/-- The value has the type. -/
@[simp] def hasType : String → Json → Bool
  | "string", .str _ => true
  | "integer", v => (integer? v).isSome
  | "array", .arr _ => true
  | "object", .obj _ => true
  | _, _ => false

/-- A keyword that has no schema in it holds of a value. What a keyword says of values of
    one type, it does not say of others. -/
@[simp] def holds : String → Json → Json → Bool
  | "type", .str t, v => hasType t v
  | "minLength", .int n, .str s => n ≤ s.length
  -- the only pattern there is
  | "pattern", .str "\\S", .str s => s.toList.any (!isPatternSpace ·)
  | "enum", .arr values, v => values.any fun value =>
      value.asString.any fun s => v.asString = some s
  | "minimum", .int n, v => (integer? v).all (n ≤ ·)
  | "maximum", .int n, v => (integer? v).all (· ≤ n)
  | "minItems", .int n, .arr vs => n ≤ vs.length
  | "required", .arr names, .obj fields => names.all fun name =>
      name.asString.all fun s => (fields.lookup s).isSome
  | _, _, _ => true

mutual

/-- The value meets the schema. -/
def admits : Json → Json → Bool
  | .obj keywords, v => admitsAll keywords v
  | _, _ => true

/-- All keywords hold of the value. -/
def admitsAll : List (String × Json) → Json → Bool
  | [], _ => true
  | (keyword, k) :: keywords, v =>
    (if keyword = "items" then (asArray v).all fun vs => vs.all fun v => admits k v
      else if keyword = "properties" then (asObject v).all fun fields => admitsProperties k fields
      else holds keyword k v) && admitsAll keywords v

/-- The fields meet the schemas that they have. -/
def admitsProperties : Json → Fields → Bool
  | .obj properties, fields => admitsFields properties fields
  | _, _ => true

/-- The fields that are there meet their schemas. -/
def admitsFields : List (String × Json) → Fields → Bool
  | [], _ => true
  | (name, s) :: properties, fields =>
      (fields.lookup name).all (fun v => admits s v) && admitsFields properties fields

end

section Keywords

variable {v : Json} {keyword : String} {k : Json} {keywords properties : List (String × Json)}
  {fields : Fields}

/-- The keywords hold each for itself. -/
theorem admitsAll_eq : admitsAll keywords v = keywords.all fun k => admitsAll [k] v := by
  induction keywords with
  | nil => rw [admitsAll, List.all_nil]
  | cons k keywords ih => rw [admitsAll, List.all_cons, ih, admitsAll, admitsAll, Bool.and_true]

/-- The fields listed are checked where they are there. -/
theorem admitsFields_eq : admitsFields properties fields =
    properties.all fun p => (fields.lookup p.1).all fun v => admits p.2 v := by
  induction properties with
  | nil => rw [admitsFields, List.all_nil]
  | cons p properties ih => rw [admitsFields, List.all_cons, ih]

/-- The order of the keywords does not matter. -/
theorem admits_object : admits (.object keywords) v = keywords.all fun k => admitsAll [k] v := by
  rw [Json.object, admits, admitsAll_eq]
  exact (List.perm_insertionSort (fun f f' : String × Json => f.1 ≤ f'.1) keywords).all_eq

/-- A keyword that has no schema in it. -/
theorem admitsAll_holds (hi : keyword ≠ "items") (hp : keyword ≠ "properties") :
    admitsAll [(keyword, k)] v = holds keyword k v := by
  rw [admitsAll, if_neg hi, if_neg hp, admitsAll, Bool.and_true]

/-- The items of an array are checked. -/
theorem admitsAll_items : admitsAll [("items", k)] v =
    (asArray v).all fun vs => vs.all fun v => admits k v := by
  rw [admitsAll, if_pos rfl, admitsAll, Bool.and_true]

/-- The order of the properties does not matter either. -/
theorem admitsAll_properties : admitsAll [("properties", .object properties)] v =
    (asObject v).all fun fields =>
      properties.all fun p => (fields.lookup p.1).all fun v => admits p.2 v := by
  rw [admitsAll, if_neg (by decide), if_pos rfl, admitsAll, Bool.and_true]
  congr 1
  funext fields
  rw [Json.object, admitsProperties, admitsFields_eq]
  exact (List.perm_insertionSort (fun f f' : String × Json => f.1 ≤ f'.1) properties).all_eq

end Keywords

/-! ## Schemas -/

/-- The document is met by the values that are valid under the schema. -/
def Means (k : Json) (s : Schema) : Prop := ∀ v, admits k v = s.valid v

section Means

variable {name : String} {k items : Json} {values : List String} {minimum maximum : Int}
  {s : Schema} {keywords properties : List (String × Json)} {schemas : List (String × Schema)}
  {required : List String}

/-- A description or a default asks nothing. -/
theorem Means.annotated (h : Means (.object keywords) s)
    (hname : name = "description" ∨ name = "default") :
    Means (.object (keywords ++ [(name, k)])) s := by
  intro v
  have hholds : admitsAll [(name, k)] v = true := by
    rcases hname with rfl | rfl <;> simp [admitsAll_holds]
  rw [← h v, admits_object, admits_object, List.all_append, List.all_cons, hholds]
  simp

@[simp] theorem stringSchema_means : Means stringSchema anyText := by
  intro v
  rw [stringSchema, admits_object]
  cases v <;> simp [admitsAll_holds, anyText, Schema.valid]

/-- A string with a pattern is not blank. -/
@[simp] theorem textSchema_means : Means textSchema nonBlank := by
  intro v
  rw [textSchema, admits_object]
  cases v <;> simp [admitsAll_holds, nonBlank, Schema.valid]

/-- A string of an enumeration is one of its values. -/
@[simp] theorem enumSchema_means : Means (enumSchema values) (.enum values) := by
  intro v
  rw [enumSchema, admits_object]
  cases v with
  | str t =>
    rw [Schema.valid, Bool.eq_iff_iff]
    simp [admitsAll_holds, Json.asString]
  | _ => simp [admitsAll_holds, Schema.valid]

/-- An integer between bounds. -/
theorem bounded_means : Means (.object [("type", .str "integer"), ("minimum", .int minimum),
    ("maximum", .int maximum)]) (.integer minimum (some maximum)) := by
  intro v
  rw [admits_object]
  cases h : integer? v <;> simp [admitsAll_holds, Schema.valid, h]

/-- An integer without an upper bound. -/
theorem minimum_means : Means (.object [("type", .str "integer"), ("minimum", .int minimum)])
    (.integer minimum none) := by
  intro v
  rw [admits_object]
  cases h : integer? v <;> simp [admitsAll_holds, Schema.valid, h]

/-- An array is one of items that are admitted. -/
theorem arraySchema_means (h : Means items s) : Means (arraySchema items) (.array 0 s) := by
  have hitems : admits items = s.valid := funext h
  intro v
  rw [arraySchema, admits_object]
  cases v with
  | arr vs => simp [admitsAll_holds, admitsAll_items, asArray, Schema.valid, hitems]
  | _ => simp [admitsAll_holds, Schema.valid]

/-- An array that is not empty. -/
theorem nonEmpty_means (h : Means items s) : Means (.object [("type", .str "array"),
    ("minItems", .int 1), ("items", items)]) (.array 1 s) := by
  have hitems : admits items = s.valid := funext h
  intro v
  rw [admits_object]
  cases v with
  | arr vs => simp [admitsAll_holds, admitsAll_items, asArray, Schema.valid, hitems]
  | _ => simp [admitsAll_holds, Schema.valid]

/-- The document of each property is that of its schema. -/
abbrev AllMean (properties : List (String × Json)) (schemas : List (String × Schema)) : Prop :=
  List.Forall₂ (fun p q => p.1 = q.1 ∧ Means p.2 q.2) properties schemas

/-- The fields admitted are those that the schema admits. -/
theorem AllMean.validFields (h : AllMean properties schemas) (fields : Fields) :
    (properties.all fun p => (fields.lookup p.1).all fun v => admits p.2 v) =
      Schema.validFields schemas fields := by
  induction h with
  | nil => rw [Schema.validFields, List.all_nil]
  | @cons p q properties schemas hpq _ ih =>
    obtain ⟨hname, hmeans⟩ := hpq
    have hadmits : admits p.2 = q.2.valid := funext hmeans
    rw [List.all_cons, ih, hname, hadmits, Schema.validFields]

/-- Fields none of which is required. -/
theorem optionalSchema_means (h : AllMean properties schemas) :
    Means (optionalSchema properties) (.object schemas []) := by
  intro v
  rw [optionalSchema, admits_object]
  cases v with
  | obj fields =>
    simp [admitsAll_holds, admitsAll_properties, asObject, Schema.valid,
      ← h.validFields]
  | _ => simp [admitsAll_holds, Schema.valid]

/-- An object with its fields, and those required. -/
theorem objectSchema_means (h : AllMean properties schemas) :
    Means (objectSchema properties required) (.object schemas required) := by
  intro v
  rw [objectSchema, admits_object]
  cases v with
  | obj fields =>
    have hrequired : admitsAll [("required", .arr (required.map .str))] (.obj fields) =
        required.all fun name => (fields.lookup name).isSome := by
      rw [admitsAll_holds (by decide) (by decide), holds, List.all_map]
      rfl
    have hproperties : admitsAll [("properties", .object properties)] (.obj fields) =
        Schema.validFields schemas fields := by
      rw [admitsAll_properties]
      exact h.validFields fields
    rw [List.all_cons, List.all_cons, List.all_cons, List.all_nil, hrequired, hproperties,
      admitsAll_holds (by decide) (by decide), Schema.valid, Bool.and_true,
      Bool.and_comm (required.all _)]
    rfl
  | _ => simp [admitsAll_holds, Schema.valid]

/-! ### The tools -/

@[simp] theorem filtersSchema_means : Means filtersSchema (.array 0 filterSchema) :=
  arraySchema_means (objectSchema_means (by simp))

/-- A description does not matter. -/
@[simp] theorem describedSchema_means {description : String} :
    Means (describedSchema description) anyText :=
  stringSchema_means.annotated (.inl rfl)

@[simp] theorem describedTextSchema_means {description : String} :
    Means (describedTextSchema description) nonBlank :=
  textSchema_means.annotated (.inl rfl)

@[simp] theorem defaultEnumSchema_means {default : String} :
    Means (defaultEnumSchema values default) (.enum values) :=
  enumSchema_means.annotated (.inr rfl)

@[simp] theorem integerSchema_means {default : Int} :
    Means (integerSchema minimum maximum default) (.integer minimum (some maximum)) :=
  bounded_means.annotated (.inr rfl)

theorem toolMessageSchema_means : Means toolMessageSchema messageSchema := by
  refine objectSchema_means (.cons ⟨rfl, describedSchema_means⟩
    (.cons ⟨rfl, describedTextSchema_means⟩ (.cons ⟨rfl, objectSchema_means ?_⟩ .nil)))
  simp

/-- The documents that are advertised are met by the arguments that are valid under the
    schemas of the tools. -/
theorem toolInputSchema_means (tool : ToolName) :
    Means (toolInputSchema tool) (inputSchema tool) := by
  cases tool with
  | search => exact objectSchema_means (by simp)
  | ingest => exact objectSchema_means (.cons ⟨rfl, nonEmpty_means toolMessageSchema_means⟩ .nil)
  | ingestRaw =>
    exact objectSchema_means (.cons ⟨rfl, describedTextSchema_means⟩
      (.cons ⟨rfl, objectSchema_means (by simp)⟩ .nil))
  | queryNodes =>
    have hoffset : Means (.object [("type", .str "integer"), ("minimum", .int 0),
        ("default", .int 0)]) (.integer 0 none) := minimum_means.annotated (.inr rfl)
    exact objectSchema_means (by simp [hoffset])
  | getSchema => exact optionalSchema_means .nil
  | listSchemas => exact optionalSchema_means .nil
  | stats => exact optionalSchema_means (by simp)
  | getTraceableChain => exact objectSchema_means (by simp)
  | feedback =>
    have hrating : Means (.object [("type", .str "integer"), ("minimum", .int 1),
        ("maximum", .int 5), ("description", .str "1-5 scale (1=lowest, 5=highest).")])
        (.integer 1 (some 5)) := bounded_means.annotated (.inl rfl)
    exact objectSchema_means (by simp [hrating])
  | getJobStatus => exact objectSchema_means (by simp)

/-- Every tool that is listed comes with such a document. -/
theorem toolDescriptor_means {tool : ToolName} (h : ToolName.ofString name = some tool) :
    ∃ k, (toolDescriptor name).get "inputSchema" = some k ∧ Means k (inputSchema tool) := by
  refine ⟨toolInputSchema tool, ?_, toolInputSchema_means tool⟩
  simp [toolDescriptor, h, Json.object, List.orderedInsert, Json.get, List.lookup_cons]

end Means

end LlmMemory.Vegapunk
