import Mathlib.Algebra.Group.Int.Defs
import Mathlib.Data.List.Sort

/-!
# JSON values

JSON values as `serde_json` has them: the fields of an object are in the order
of their names (`Json.object`). The text of a value (`Json.toText`), and the
reading of the arguments of a tool from one: by the name of a field in an
object, or by its position in an array (`Json.field`).
-/

namespace LlmMemory

/-- A number is an integer, or another one, by its text. -/
inductive Json
  | null
  | bool (b : Bool)
  | int (n : Int)
  | float (text : String)
  | str (s : String)
  | arr (vs : List Json)
  | obj (fields : List (String × Json))

namespace Json

/-- The object with these fields, in the order of their names. -/
def object (fields : List (String × Json)) : Json :=
  .obj (fields.insertionSort fun f f' => f.1 ≤ f'.1)

/-- A value that may be missing. -/
def option {α : Type} (f : α → Json) : Option α → Json
  | some a => f a
  | none => .null

/-! ## Text -/

/-- A hexadecimal digit. -/
def hexDigit (n : ℕ) : Char := "0123456789abcdef".toList.getD n '0'

/-- A character in a string; quotes, backslashes and controls are escaped. -/
def escapeChar (c : Char) : List Char :=
  match c.toNat with
  | 0x08 => ['\\', 'b']
  | 0x09 => ['\\', 't']
  | 0x0A => ['\\', 'n']
  | 0x0C => ['\\', 'f']
  | 0x0D => ['\\', 'r']
  | 0x22 => ['\\', '"']
  | 0x5C => ['\\', '\\']
  | n => if n < 0x20 then ['\\', 'u', '0', '0', hexDigit (n / 16), hexDigit (n % 16)] else [c]

/-- A string in quotes, escaped. -/
def strChars (s : String) : List Char := '"' :: s.toList.flatMap escapeChar ++ ['"']

mutual

/-- The text of a value. -/
def chars : Json → List Char
  | .null => "null".toList
  | .bool b => (if b then "true" else "false").toList
  | .int n => (toString n).toList
  | .float text => text.toList
  | .str s => strChars s
  | .arr vs => '[' :: [','].intercalate (charsList vs) ++ [']']
  | .obj fields => Char.ofNat 0x7B :: [','].intercalate (charsFields fields) ++ [Char.ofNat 0x7D]

/-- The texts of the elements. -/
def charsList : List Json → List (List Char)
  | [] => []
  | v :: vs => chars v :: charsList vs

/-- The texts of the fields. -/
def charsFields : List (String × Json) → List (List Char)
  | [] => []
  | (name, v) :: fields => (strChars name ++ ':' :: chars v) :: charsFields fields

end

/-- The compact text of a value. -/
def toText (v : Json) : String := String.ofList v.chars

/-! ## Reading arguments -/

/-- The text, if the value is one. -/
def asString : Json → Option String
  | .str s => some s
  | _ => none

/-- An integer of 64 bits. -/
def asI64 : Json → Option Int
  | .int n => if -2 ^ 63 ≤ n ∧ n < 2 ^ 63 then some n else none
  | _ => none

/-- A value that may be null. -/
def asOption {α : Type} (f : Json → Option α) : Json → Option (Option α)
  | .null => some none
  | v => (f v).map some

/-- An array all of whose elements are read. -/
def asVec {α : Type} (f : Json → Option α) : Json → Option (List α)
  | .arr vs => vs.mapM f
  | _ => none

/-- The value may be read into `n` fields: it is an object, or an array with no
    more elements. -/
def fits (n : ℕ) : Json → Bool
  | .obj _ => true
  | .arr vs => vs.length ≤ n
  | _ => false

/-- The field `name`, at position `i` in an array, with its value if it is
    absent from an object, or from an array. -/
def field {α : Type} (v : Json) (name : String) (i : ℕ) (read : Json → Option α)
    (absent short : Option α) : Option α :=
  match v with
  | .obj fields => ((fields.lookup name).map read).getD absent
  | .arr vs => (vs[i]?.map read).getD short
  | _ => none

example : (object [("b", .arr [.int (-1), .str "\n"]), ("a", .null)]).toText =
    "\x7b\"a\":null,\"b\":[-1,\"\\n\"]\x7d" := by decide

end Json

/-! ## Reading in steps -/

/-- A computation that may fail in steps comes to what its last one does. -/
theorem bind_ok {α β ε : Type} {x : Except ε α} {f : α → Except ε β} {b : β}
    (h : x >>= f = .ok b) : ∃ a, x = .ok a ∧ f a = .ok b := by
  cases x with
  | ok a => exact ⟨a, rfl, h⟩
  | error e => cases h

end LlmMemory
