import Mathlib.Data.Nat.Notation

/-!
# Scopes, owners and concept names

The types every part of the server shares: the scope of a row, personal or
shared, the owner of a row or of a rebuild (`OwnerKey`), and the names of
concepts (`Concept.isValid`).
-/

namespace LlmMemory

/-- Whose a row is: a user's own, or of a shared memory. -/
inductive Scope
  | personal
  | shared
  deriving DecidableEq, Repr

/-- The text of a scope in the database and in tool arguments. -/
def Scope.asStr : Scope → String
  | .personal => "personal"
  | .shared => "shared"

/-- The owner of a row: a user, in the personal scope, or a shared memory. -/
structure OwnerKey where
  scope : Scope
  ownerId : String
  deriving DecidableEq, Repr

/-- The owner key of the personal memory of a user. -/
def OwnerKey.personal (userId : String) : OwnerKey := ⟨.personal, userId⟩

namespace Concept

/-- The class `[a-z0-9]`. -/
def isLowerAlnum (c : Char) : Bool := ('a' ≤ c && c ≤ 'z') || ('0' ≤ c && c ≤ '9')

/-- The names matching `^[a-z0-9][a-z0-9-]{1,63}$`. -/
def isValid (s : String) : Bool :=
  match s.toList with
  | [] => false
  | c :: rest => isLowerAlnum c && 1 ≤ rest.length && rest.length ≤ 63 &&
      rest.all fun c => isLowerAlnum c || c == '-'

example : isValid "team-frontend" = true ∧ isValid "trailing-" = true := by decide
example : isValid "a" = false ∧ isValid "-leading" = false ∧ isValid "API" = false := by decide

end Concept

end LlmMemory
