import Stencil.Bytes

/-!
# Failures

What an evaluation that does not succeed reports: the kind of the failure, the name it is about, and
a detail. Host functions may report any of them, also one that says nothing.
-/

namespace Stencil

namespace Failure

inductive Kind where
  /-- A host function gave up without a word. -/
  | none
  /-- A definition uses the name of a variable. -/
  | nameConflict
  /-- A definition or a variable of the caller uses the name of a function. -/
  | nameConflictWithFunction
  /-- A section is neither a text, a definition nor a slot. -/
  | unknownSectionKind
  /-- A template is used without an argument it requires. -/
  | missingRequiredParameter
  /-- A function variable names no function. -/
  | unknownFunction
  | divisionByZero
  /-- A variable of unknown kind is used, or a slot lies outside the text. -/
  | invariantViolation
  | parseError
  /-- A function ran and failed. -/
  | functionFailed
  /-- A kind that is not in this list. -/
  | unlisted
  deriving DecidableEq, Repr

/-- The kinds in their order. -/
def Kind.all : List Kind :=
  [none, nameConflict, nameConflictWithFunction, unknownSectionKind, missingRequiredParameter,
    unknownFunction, divisionByZero, invariantViolation, parseError, functionFailed]

/-- The kind at a place in that order. -/
def Kind.ofIndex (i : Nat) : Kind := all.getD i unlisted

/-- The word for a kind. -/
def Kind.write : Kind → Bytes
  | none => Bytes.ofString "None"
  | nameConflict => Bytes.ofString "NameConflict"
  | nameConflictWithFunction => Bytes.ofString "NameConflictWithFunction"
  | unknownSectionKind => Bytes.ofString "UnknownSectionKind"
  | missingRequiredParameter => Bytes.ofString "MissingRequiredParameter"
  | unknownFunction => Bytes.ofString "UnknownFunction"
  | divisionByZero => Bytes.ofString "DivisionByZero"
  | invariantViolation => Bytes.ofString "InvariantViolation"
  | parseError => Bytes.ofString "ParseError"
  | functionFailed => Bytes.ofString "FunctionFailed"
  | unlisted => Bytes.ofString "Unknown"

end Failure

/-- A failed evaluation. -/
structure Failure where
  kind : Failure.Kind
  name : Bytes := []
  detail : Bytes := []
  deriving DecidableEq, Repr

namespace Failure

/-- The sentence for a failure without its detail. -/
def headline (f : Failure) : Bytes :=
  match f.kind with
  | .none => Bytes.ofString "No error"
  | .nameConflict => Bytes.ofString "Variable name conflict: " ++ f.name
  | .nameConflictWithFunction => Bytes.ofString "Variable name conflicts with function: " ++ f.name
  | .unknownSectionKind => Bytes.ofString "Unknown section kind"
  | .missingRequiredParameter => Bytes.ofString "Required param not found: " ++ f.name
  | .unknownFunction => Bytes.ofString "Unknown function: " ++ f.name
  | .divisionByZero => Bytes.ofString "Division by zero in " ++ f.name
  | .invariantViolation => Bytes.ofString "Invariant violated by " ++ f.name
  | .parseError =>
    Bytes.ofString "Parse error" ++ if f.name.isEmpty then [] else Bytes.ofString " at " ++ f.name
  | .functionFailed => Bytes.ofString "Function " ++ f.name ++ Bytes.ofString " failed"
  | .unlisted => []

/-- The whole message: the headline, and the detail in parentheses if there is one. A failure that
says nothing has no detail. -/
def message (f : Failure) : Bytes :=
  if f.kind = .none ∨ f.detail.isEmpty then f.headline
  else f.headline ++ Bytes.ofString " (" ++ f.detail ++ Bytes.ofString ")"

end Failure

end Stencil
