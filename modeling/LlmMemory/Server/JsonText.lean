import Mathlib.Data.List.TakeWhile
import LlmMemory.Server.Json

/-!
# Reading the text of a value

A value is read back from its compact text (`Json.ofText`), whatever the strings in
it are: the text is one of this value only (`ofText_toText`, `toText_inj`). Floats
are kept by their texts, which must be texts of floats (`Json.Plain`).

The reader has fuel, of which it needs no more than the text is long (`read_chars`).
-/

namespace LlmMemory

namespace Json

/-! ## Numbers -/

/-- The characters of the numbers. -/
def isNumeral (c : Char) : Bool := c.isDigit || ['-', '+', '.', 'e', 'E'].contains c

/-- A number is read, from digits only. -/
def readNat (ds : List Char) : Option ℕ :=
  if ds ≠ [] ∧ ds.all (·.isDigit) then some (Nat.ofDigitChars 10 ds 0) else none

/-- An integer is read. -/
def readInt : List Char → Option Int
  | [] => none
  | c :: cs => if c = '-' then (readNat cs).map fun n => -(n : Int) else (readNat (c :: cs)).map (·)

/-- A number is an integer if it can be. -/
def readNumber (cs : List Char) : Option Json :=
  if cs = [] then none else some ((readInt cs).elim (.float (String.ofList cs)) .int)

/-- The text of a float: one of the number characters that is no integer. -/
def isFloatText (text : String) : Bool :=
  text.toList != [] && text.toList.all isNumeral && (readInt text.toList).isNone

/-- The digits of a number are read back. -/
theorem readNat_toDigits (n : ℕ) : readNat (Nat.toDigits 10 n) = some n := by
  have hdigits : (Nat.toDigits 10 n).all (·.isDigit) = true :=
    List.all_eq_true.2 fun c hc => Nat.isDigit_of_mem_toDigits (by decide) (by decide) hc
  rw [readNat, if_pos ⟨Nat.toDigits_ne_nil, hdigits⟩, Nat.ofDigitChars_ten_toDigits]

/-- The text of a number without a sign. -/
theorem toList_natCast (n : ℕ) : (toString (n : Int)).toList = Nat.toDigits 10 n :=
  Nat.toList_repr

/-- The text of a negative number. -/
theorem toList_negSucc (n : ℕ) :
    (toString (Int.negSucc n)).toList = '-' :: Nat.toDigits 10 (n + 1) := by
  show ("-" ++ (n + 1).repr).toList = _
  rw [String.toList_append, Nat.toList_repr]
  rfl

/-- An integer is read back from its text. -/
theorem readInt_toString (n : Int) : readInt (toString n).toList = some n := by
  cases n with
  | ofNat n =>
    have hread := readNat_toDigits n
    rw [Int.ofNat_eq_natCast, toList_natCast]
    cases hds : Nat.toDigits 10 n with
    | nil => exact absurd hds Nat.toDigits_ne_nil
    | cons c cs =>
      have hdigit : c.isDigit = true :=
        Nat.isDigit_of_mem_toDigits (n := n) (by decide) (by decide) (hds ▸ List.mem_cons_self)
      have hne : c ≠ '-' := by
        rintro rfl
        exact absurd hdigit (by decide)
      rw [readInt, if_neg hne, ← hds, hread]
      rfl
  | negSucc n =>
    rw [toList_negSucc, readInt, if_pos rfl, readNat_toDigits]
    rfl

theorem isNumeral_of_isDigit {c : Char} (h : c.isDigit = true) : isNumeral c = true := by
  rw [isNumeral, h, Bool.true_or]

/-- An integer is written with characters of numerals. -/
theorem isNumeral_toString (n : Int) : ∀ c ∈ (toString n).toList, isNumeral c = true := by
  intro c hc
  cases n with
  | ofNat n =>
    rw [Int.ofNat_eq_natCast, toList_natCast] at hc
    exact isNumeral_of_isDigit (Nat.isDigit_of_mem_toDigits (by decide) (by decide) hc)
  | negSucc n =>
    rw [toList_negSucc] at hc
    rcases List.mem_cons.1 hc with rfl | hc
    · decide
    · exact isNumeral_of_isDigit (Nat.isDigit_of_mem_toDigits (by decide) (by decide) hc)

theorem toString_ne_nil (n : Int) : (toString n).toList ≠ [] := by
  intro h
  have hread := readInt_toString n
  rw [h] at hread
  cases hread

/-! ## Strings -/

/-- The value of a hexadecimal digit. -/
def hexValue (c : Char) : Option ℕ :=
  let n := "0123456789abcdef".toList.idxOf c
  if n < 16 then some n else none

/-- The character escaped by one that stands for it. -/
def unescape (c : Char) : Option Char :=
  if c = 'b' then some (Char.ofNat 0x08)
  else if c = 't' then some (Char.ofNat 0x09)
  else if c = 'n' then some (Char.ofNat 0x0A)
  else if c = 'f' then some (Char.ofNat 0x0C)
  else if c = 'r' then some (Char.ofNat 0x0D)
  else if c = '"' ∨ c = '\\' then some c
  else none

/-- What the reader of a string is at: a character, one that is escaped, or some of
    the hexadecimal digits of one. -/
inductive StrState
  | plain
  | escape
  | hex (n left : ℕ)

/-- The characters of a string after its opening quote, and what is after it. -/
def readStr : StrState → List Char → Option (List Char × List Char)
  | _, [] => none
  | .plain, c :: cs =>
    if c = '"' then some ([], cs)
    else if c = '\\' then readStr .escape cs
    else (readStr .plain cs).map fun r => (c :: r.1, r.2)
  | .escape, c :: cs =>
    if c = 'u' then readStr (.hex 0 3) cs
    else (unescape c).bind fun x => (readStr .plain cs).map fun r => (x :: r.1, r.2)
  | .hex n 0, c :: cs =>
    (hexValue c).bind fun v =>
      (readStr .plain cs).map fun r => (Char.ofNat (16 * n + v) :: r.1, r.2)
  | .hex n (left + 1), c :: cs => (hexValue c).bind fun v => readStr (.hex (16 * n + v) left) cs

theorem hexValue_hexDigit : ∀ n < 16, hexValue (hexDigit n) = some n := by
  decide

/-- A control character is read back. -/
theorem readStr_control {n : ℕ} (h : n < 0x20) (cs : List Char) :
    readStr .plain (['\\', 'u', '0', '0', hexDigit (n / 16), hexDigit (n % 16)] ++ cs) =
      (readStr .plain cs).map fun r => (Char.ofNat n :: r.1, r.2) := by
  have hzero : hexValue '0' = some 0 := hexValue_hexDigit 0 (by decide)
  have hhigh := hexValue_hexDigit (n / 16) (by omega)
  have hlow := hexValue_hexDigit (n % 16) (by omega)
  have hn : 16 * (16 * (16 * (16 * 0 + 0) + 0) + n / 16) + n % 16 = n := by omega
  show readStr (.hex 0 3) ('0' :: '0' :: hexDigit (n / 16) :: hexDigit (n % 16) :: cs) = _
  rw [readStr, hzero, Option.bind_some, readStr, hzero, Option.bind_some, readStr, hhigh,
    Option.bind_some, readStr, hlow, Option.bind_some, hn]

/-- A character is read back, however it is escaped. -/
theorem readStr_escapeChar (c : Char) (cs : List Char) :
    readStr .plain (escapeChar c ++ cs) = (readStr .plain cs).map fun r => (c :: r.1, r.2) := by
  have hc : ∀ n, c.toNat = n → c = Char.ofNat n := fun n h => by rw [← h, Char.ofNat_toNat]
  unfold escapeChar
  split
  · next h => rw [hc _ h]; rfl
  · next h => rw [hc _ h]; rfl
  · next h => rw [hc _ h]; rfl
  · next h => rw [hc _ h]; rfl
  · next h => rw [hc _ h]; rfl
  · next h => rw [hc _ h]; rfl
  · next h => rw [hc _ h]; rfl
  · next hquote hslash =>
    split
    · next hlt => rw [readStr_control hlt, Char.ofNat_toNat]
    · have hne : c ≠ '"' ∧ c ≠ '\\' :=
        ⟨by rintro rfl; exact hquote rfl, by rintro rfl; exact hslash rfl⟩
      rw [List.singleton_append, readStr, if_neg hne.1, if_neg hne.2]

/-- A string is read back, up to the quote that ends it. -/
theorem readStr_flatMap (s cs : List Char) :
    readStr .plain (s.flatMap escapeChar ++ '"' :: cs) = some (s, cs) := by
  induction s with
  | nil => rfl
  | cons c s ih =>
    rw [List.flatMap_cons, List.append_assoc, readStr_escapeChar, ih]
    rfl

/-! ## Values -/

/-- A value with the text `lit`, if the characters begin with it. -/
def readLit (lit : List Char) (v : Json) (cs : List Char) : Option (Json × List Char) :=
  if lit.isPrefixOf cs then some (v, cs.drop lit.length) else none

mutual

/-- The value that the characters begin with, and what is after it. -/
def read : ℕ → List Char → Option (Json × List Char)
  | 0, _ => none
  | _ + 1, [] => none
  | fuel + 1, c :: cs =>
    if c = '"' then (readStr .plain cs).map fun r => (.str (String.ofList r.1), r.2)
    else if c = '[' then
      if cs.head? = some ']' then some (.arr [], cs.tail)
      else (readItems fuel cs).map fun r => (.arr r.1, r.2)
    else if c = Char.ofNat 0x7B then
      if cs.head? = some (Char.ofNat 0x7D) then some (.obj [], cs.tail)
      else (readFields fuel cs).map fun r => (.obj r.1, r.2)
    else if c = 'n' then readLit "null".toList .null (c :: cs)
    else if c = 't' then readLit "true".toList (.bool true) (c :: cs)
    else if c = 'f' then readLit "false".toList (.bool false) (c :: cs)
    else (readNumber ((c :: cs).takeWhile isNumeral)).map fun v =>
      (v, (c :: cs).dropWhile isNumeral)

/-- The elements of an array, from the first of them on. -/
def readItems : ℕ → List Char → Option (List Json × List Char)
  | 0, _ => none
  | fuel + 1, cs => (read fuel cs).bind fun r =>
    match r.2 with
    | [] => none
    | c :: cs =>
      if c = ']' then some ([r.1], cs)
      else if c = ',' then (readItems fuel cs).map fun r' => (r.1 :: r'.1, r'.2)
      else none

/-- The fields of an object, from the first of them on. -/
def readFields : ℕ → List Char → Option (List (String × Json) × List Char)
  | 0, _ => none
  | _ + 1, [] => none
  | fuel + 1, c :: cs => if c ≠ '"' then none else (readStr .plain cs).bind fun name =>
    match name.2 with
    | [] => none
    | c :: cs => if c ≠ ':' then none else (read fuel cs).bind fun r =>
      match r.2 with
      | [] => none
      | c :: cs =>
        if c = Char.ofNat 0x7D then some ([(String.ofList name.1, r.1)], cs)
        else if c = ',' then
          (readFields fuel cs).map fun r' => ((String.ofList name.1, r.1) :: r'.1, r'.2)
        else none

end

/-- The value with this text. -/
def ofText (text : String) : Option Json :=
  match read (text.toList.length + 1) text.toList with
  | some (v, []) => some v
  | _ => none

mutual

/-- The floats of the value have texts of floats. -/
def Plain : Json → Bool
  | .float text => isFloatText text
  | .arr vs => plainList vs
  | .obj fields => plainFields fields
  | _ => true

/-- All elements are plain. -/
def plainList : List Json → Bool
  | [] => true
  | v :: vs => Plain v && plainList vs

/-- The values of all fields are plain. -/
def plainFields : List (String × Json) → Bool
  | [] => true
  | (_, v) :: fields => Plain v && plainFields fields

end

/-- The elements of a list that is plain. -/
theorem plainList_iff {vs : List Json} : plainList vs = true ↔ ∀ v ∈ vs, Plain v = true := by
  induction vs with
  | nil => exact ⟨fun _ _ hv => (nomatch hv), fun _ => rfl⟩
  | cons v vs ih => rw [plainList, Bool.and_eq_true, ih, List.forall_mem_cons]

/-- The fields of a list that is plain. -/
theorem plainFields_iff {fields : List (String × Json)} :
    plainFields fields = true ↔ ∀ f ∈ fields, Plain f.2 = true := by
  induction fields with
  | nil => exact ⟨fun _ _ hv => (nomatch hv), fun _ => rfl⟩
  | cons f fields ih => rw [plainFields, Bool.and_eq_true, ih, List.forall_mem_cons]

theorem plain_map {α : Type} {f : α → Json} (h : ∀ a, Plain (f a) = true) (as : List α) :
    Plain (.arr (as.map f)) = true :=
  plainList_iff.2 (List.forall_mem_map.2 fun a _ => h a)

theorem plain_object {fields : List (String × Json)} (h : plainFields fields = true) :
    Plain (object fields) = true :=
  plainFields_iff.2 fun f hf => plainFields_iff.1 h f ((List.mem_insertionSort _).1 hf)

/-- A plain value that may be missing. -/
theorem plain_option {α : Type} {f : α → Json} (h : ∀ a, Plain (f a) = true) (a : Option α) :
    Plain (option f a) = true := by
  cases a with
  | none => rfl
  | some a => exact h a

/-- What comes after a value is not a part of a number. -/
def Ends (cs : List Char) : Prop := ∀ c ∈ cs.head?, isNumeral c = false

theorem ends_cons {c : Char} (h : isNumeral c = false) (cs : List Char) : Ends (c :: cs) := by
  intro c' hc'
  rw [List.head?_cons, Option.mem_some_iff] at hc'
  rw [← hc', h]

theorem ends_nil : Ends [] := fun _ hc => nomatch hc

theorem takeWhile_numeral {cs rest : List Char} (hcs : ∀ c ∈ cs, isNumeral c = true)
    (hrest : Ends rest) : (cs ++ rest).takeWhile isNumeral = cs := by
  rw [List.takeWhile_append_of_pos hcs]
  cases rest with
  | nil => rw [List.takeWhile_nil, List.append_nil]
  | cons c rest => rw [List.takeWhile_cons_of_neg (by rw [hrest c rfl]; decide), List.append_nil]

theorem dropWhile_numeral {cs rest : List Char} (hcs : ∀ c ∈ cs, isNumeral c = true)
    (hrest : Ends rest) : (cs ++ rest).dropWhile isNumeral = rest := by
  rw [List.dropWhile_append_of_pos hcs]
  cases rest with
  | nil => rfl
  | cons c rest => rw [List.dropWhile_cons_of_neg (by rw [hrest c rfl]; decide)]

/-- A number is read to its end. -/
theorem read_number {fuel : ℕ} {cs rest : List Char} (hne : cs ≠ [])
    (hcs : ∀ c ∈ cs, isNumeral c = true) (hrest : Ends rest) :
    read (fuel + 1) (cs ++ rest) = (readNumber cs).map fun v => (v, rest) := by
  cases cs with
  | nil => exact absurd rfl hne
  | cons c cs =>
    have hc : isNumeral c = true := hcs c List.mem_cons_self
    have hother : ∀ c', isNumeral c' = false → c ≠ c' := by
      rintro c' h rfl
      rw [hc] at h
      cases h
    rw [List.cons_append, read, if_neg (hother _ (by decide)), if_neg (hother _ (by decide)),
      if_neg (hother _ (by decide)), if_neg (hother _ (by decide)), if_neg (hother _ (by decide)),
      if_neg (hother _ (by decide)), ← List.cons_append, takeWhile_numeral hcs hrest,
      dropWhile_numeral hcs hrest]

/-- The text of a float is a numeral that is no integer. -/
theorem isFloatText_iff {text : String} : isFloatText text = true ↔
    text.toList ≠ [] ∧ (∀ c ∈ text.toList, isNumeral c = true) ∧ readInt text.toList = none := by
  rw [isFloatText, Bool.and_eq_true, Bool.and_eq_true, bne_iff_ne, List.all_eq_true,
    Option.isNone_iff_eq_none, and_assoc]

/-- No value begins with the end of another. -/
theorem chars_head {v : Json} (h : Plain v = true) : ∃ c cs, chars v = c :: cs ∧ c ≠ ']' := by
  have hnumeral : ∀ {cs : List Char}, cs ≠ [] → (∀ c ∈ cs, isNumeral c = true) →
      ∃ c cs', cs = c :: cs' ∧ c ≠ ']' := by
    intro cs hne hcs
    obtain ⟨c, cs, rfl⟩ := List.exists_cons_of_ne_nil hne
    refine ⟨c, cs, rfl, ?_⟩
    rintro rfl
    exact absurd (hcs _ List.mem_cons_self) (by decide)
  cases v with
  | null => exact ⟨_, _, rfl, by decide⟩
  | bool b => cases b <;> exact ⟨_, _, rfl, by decide⟩
  | int n => exact hnumeral (toString_ne_nil n) (isNumeral_toString n)
  | float text =>
    rw [Plain, isFloatText_iff] at h
    exact hnumeral h.1 h.2.1
  | str s => exact ⟨_, _, rfl, by decide⟩
  | arr vs => exact ⟨_, _, rfl, by decide⟩
  | obj fields => exact ⟨_, _, rfl, by decide⟩

/-- A string that is closed is read back. -/
theorem readStr_close (s : String) (rest : List Char) :
    readStr .plain (s.toList.flatMap escapeChar ++ ['"'] ++ rest) = some (s.toList, rest) := by
  rw [List.append_assoc, List.singleton_append, readStr_flatMap]

theorem readLit_append (lit : List Char) (v : Json) (rest : List Char) :
    readLit lit v (lit ++ rest) = some (v, rest) := by
  rw [readLit, if_pos (List.isPrefixOf_iff_prefix.2 (List.prefix_append lit rest)), List.drop_left]

theorem items_cons (v v' : Json) (vs : List Json) :
    [','].intercalate (charsList (v :: v' :: vs)) =
      chars v ++ ',' :: [','].intercalate (charsList (v' :: vs)) := by
  rw [charsList, charsList, List.intercalate_cons_cons, List.append_assoc, List.singleton_append]

theorem fields_cons (name name' : String) (v v' : Json) (fields : List (String × Json)) :
    [','].intercalate (charsFields ((name, v) :: (name', v') :: fields)) =
      (strChars name ++ ':' :: chars v) ++
        ',' :: [','].intercalate (charsFields ((name', v') :: fields)) := by
  rw [charsFields, charsFields, List.intercalate_cons_cons, List.append_assoc (_ ++ _),
    List.singleton_append]

/-- The text of elements does not begin like the end of an array. -/
theorem items_head {v : Json} {vs : List Json} (h : plainList (v :: vs) = true) :
    ∃ c cs, [','].intercalate (charsList (v :: vs)) = c :: cs ∧ c ≠ ']' := by
  rw [plainList, Bool.and_eq_true] at h
  obtain ⟨c, cs, hc, hne⟩ := chars_head h.1
  cases vs with
  | nil => exact ⟨c, cs, by rw [charsList, charsList, List.intercalate_singleton, hc], hne⟩
  | cons v' vs => exact ⟨c, _, by rw [items_cons, hc, List.cons_append], hne⟩

/-- The text of fields begins with a quote. -/
theorem fields_head (name : String) (v : Json) (fields : List (String × Json)) :
    ∃ cs, [','].intercalate (charsFields ((name, v) :: fields)) = '"' :: cs := by
  cases fields with
  | nil =>
    rw [charsFields, charsFields, List.intercalate_singleton]
    exact ⟨_, rfl⟩
  | cons f fields =>
    rw [fields_cons]
    exact ⟨_, rfl⟩

/-- The name of a field is read, then its value. -/
theorem readFields_name (fuel : ℕ) (name : String) (v : Json) (rest : List Char) :
    readFields (fuel + 1) (strChars name ++ ':' :: chars v ++ rest) =
      (read fuel (chars v ++ rest)).bind fun r =>
        match r.2 with
        | [] => none
        | c :: cs =>
          if c = Char.ofNat 0x7D then some ([(name, r.1)], cs)
          else if c = ',' then
            (readFields fuel cs).map fun r' => ((name, r.1) :: r'.1, r'.2)
          else none := by
  rw [strChars, List.append_assoc, List.cons_append, List.cons_append, readFields,
    if_neg (not_not.2 rfl), readStr_close, Option.bind_some, String.ofList_toList]
  rfl

mutual

/-- A value is read from its characters, whatever is after them. -/
theorem read_chars : ∀ (v : Json) (fuel : ℕ) (rest : List Char), (chars v).length ≤ fuel →
    Plain v = true → Ends rest → read fuel (chars v ++ rest) = some (v, rest)
  | v, 0, rest, hfuel, hplain, _ => by
    obtain ⟨c, cs, hc, -⟩ := chars_head hplain
    rw [hc] at hfuel
    cases hfuel
  | .null, fuel + 1, rest, _, _, _ => readLit_append "null".toList .null rest
  | .bool true, fuel + 1, rest, _, _, _ => readLit_append "true".toList (.bool true) rest
  | .bool false, fuel + 1, rest, _, _, _ => readLit_append "false".toList (.bool false) rest
  | .int n, fuel + 1, rest, _, _, hrest => by
    rw [chars, read_number (toString_ne_nil n) (isNumeral_toString n) hrest, readNumber,
      if_neg (toString_ne_nil n), readInt_toString]
    rfl
  | .float text, fuel + 1, rest, _, hplain, hrest => by
    rw [Plain, isFloatText_iff] at hplain
    obtain ⟨hne, hnumeral, hint⟩ := hplain
    rw [chars, read_number hne hnumeral hrest, readNumber, if_neg hne, hint, Option.elim_none,
      String.ofList_toList]
    rfl
  | .str s, fuel + 1, rest, _, _, _ => by
    rw [chars, strChars, List.cons_append, List.cons_append, read, if_pos rfl, readStr_close,
      Option.map_some, String.ofList_toList]
  | .arr [], fuel + 1, rest, _, _, _ => rfl
  | .arr (v :: vs), fuel + 1, rest, hfuel, hplain, _ => by
    rw [Plain] at hplain
    rw [chars, List.length_append, List.length_cons, List.length_singleton] at hfuel
    have hitems := readItems_chars (v :: vs) fuel rest (List.cons_ne_nil v vs) (by omega) hplain
    obtain ⟨c, cs, hc, hne⟩ := items_head hplain
    rw [chars, List.cons_append, List.cons_append, read, if_neg (by decide), if_pos rfl,
      List.append_assoc, List.singleton_append, hc, List.cons_append, List.head?_cons,
      if_neg (by rw [Option.some_inj]; exact hne), ← List.cons_append, ← hc, hitems]
    rfl
  | .obj [], fuel + 1, rest, _, _, _ => rfl
  | .obj ((name, v) :: fields), fuel + 1, rest, hfuel, hplain, _ => by
    rw [Plain] at hplain
    rw [chars, List.length_append, List.length_cons, List.length_singleton] at hfuel
    have hfields := readFields_chars ((name, v) :: fields) fuel rest (List.cons_ne_nil _ fields)
      (by omega) hplain
    obtain ⟨cs, hc⟩ := fields_head name v fields
    rw [chars, List.cons_append, List.cons_append, read, if_neg (by decide), if_neg (by decide),
      if_pos rfl, List.append_assoc, List.singleton_append, hc, List.cons_append, List.head?_cons,
      if_neg (by decide), ← List.cons_append, ← hc, hfields]
    rfl

/-- The elements of an array are read back. -/
theorem readItems_chars : ∀ (vs : List Json) (fuel : ℕ) (rest : List Char), vs ≠ [] →
    ([','].intercalate (charsList vs)).length + 1 ≤ fuel → plainList vs = true →
    readItems fuel ([','].intercalate (charsList vs) ++ ']' :: rest) = some (vs, rest)
  | [], _, _, hne, _, _ => absurd rfl hne
  | [v], fuel + 1, rest, _, hfuel, hplain => by
    rw [plainList, plainList, Bool.and_true] at hplain
    rw [charsList, charsList, List.intercalate_singleton] at hfuel ⊢
    rw [readItems, read_chars v fuel _ (by omega) hplain (ends_cons (by decide) rest)]
    rfl
  | v :: v' :: vs, fuel + 1, rest, _, hfuel, hplain => by
    rw [plainList, Bool.and_eq_true] at hplain
    rw [items_cons, List.length_append, List.length_cons] at hfuel
    have hitems := readItems_chars (v' :: vs) fuel rest (List.cons_ne_nil v' vs) (by omega) hplain.2
    rw [items_cons, List.append_assoc, List.cons_append, readItems,
      read_chars v fuel _ (by omega) hplain.1 (ends_cons (by decide) _), Option.bind_some]
    show (if ',' = ']' then _ else if ',' = ',' then _ else _) = _
    rw [if_neg (by decide), if_pos rfl, hitems]
    rfl

/-- The fields of an object are read back. -/
theorem readFields_chars : ∀ (fields : List (String × Json)) (fuel : ℕ) (rest : List Char),
    fields ≠ [] → ([','].intercalate (charsFields fields)).length + 1 ≤ fuel →
    plainFields fields = true →
    readFields fuel ([','].intercalate (charsFields fields) ++ Char.ofNat 0x7D :: rest) =
      some (fields, rest)
  | [], _, _, hne, _, _ => absurd rfl hne
  | [(name, v)], fuel + 1, rest, _, hfuel, hplain => by
    rw [plainFields, plainFields, Bool.and_true] at hplain
    rw [charsFields, charsFields, List.intercalate_singleton] at hfuel ⊢
    rw [List.length_append, List.length_cons] at hfuel
    rw [readFields_name, read_chars v fuel _ (by omega) hplain (ends_cons (by decide) rest)]
    rfl
  | (name, v) :: (name', v') :: fields, fuel + 1, rest, _, hfuel, hplain => by
    rw [plainFields, Bool.and_eq_true] at hplain
    rw [fields_cons, List.length_append, List.length_append, List.length_cons,
      List.length_cons] at hfuel
    have hfields := readFields_chars ((name', v') :: fields) fuel rest (List.cons_ne_nil _ fields)
      (by omega) hplain.2
    rw [fields_cons, List.append_assoc, List.cons_append, readFields_name,
      read_chars v fuel _ (by omega) hplain.1 (ends_cons (by decide) _), Option.bind_some]
    show (if ',' = Char.ofNat 0x7D then _ else if ',' = ',' then _ else _) = _
    rw [if_neg (by decide), if_pos rfl, hfields]
    rfl

end

/-- A value is read back from its text. -/
theorem ofText_toText {v : Json} (h : Plain v = true) : ofText v.toText = some v := by
  have hread := read_chars v ((chars v).length + 1) [] (Nat.le_succ _) h ends_nil
  rw [List.append_nil] at hread
  rw [ofText, toText, String.toList_ofList, hread]

/-- Two values with one text are one. -/
theorem toText_inj {v v' : Json} (h : Plain v = true) (h' : Plain v' = true)
    (htext : v.toText = v'.toText) : v = v' := by
  have hread := ofText_toText h
  rw [htext, ofText_toText h'] at hread
  exact (Option.some.inj hread).symm

end Json

end LlmMemory
