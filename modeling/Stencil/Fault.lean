import Stencil.Failure

/-!
# Faults of a template

Why and where a template cannot be read. The place of a fault is counted from the end of what is
being read, or it is a name: so a fault of a template is also the fault of the template's tail from
the faulty tag on, and only `Fault.failure`, which knows the whole length, speaks of offsets.
-/

namespace Stencil

namespace Fault

/-- Why a template cannot be read. -/
inductive Reason where
  | unterminatedTag
  | strayClosingTag
  | nameExpected
  | unterminatedString
  | badNumber (digits : Bytes)
  | literalExpected
  | unterminatedParams
  | separatorExpected
  | argumentNotLiteral (param : Bytes)
  | argumentsExpected
  | textAfterDefinition
  | numberExpected
  | textAfterSlot
  | zeroDivisor
  deriving DecidableEq, Repr

def Reason.kind : Reason → Failure.Kind
  | zeroDivisor => .divisionByZero
  | _ => .parseError

/-- The reason in words. -/
def Reason.detail : Reason → Bytes
  | unterminatedTag => Bytes.ofString "unterminated tag"
  | strayClosingTag => Bytes.ofString "closing tag without a matching block"
  | nameExpected => Bytes.ofString "expected a variable name"
  | unterminatedString => Bytes.ofString "unterminated string"
  | badNumber digits => Bytes.ofString "bad number '" ++ digits ++ Bytes.ofString "'"
  | literalExpected => Bytes.ofString "expected a string or number"
  | unterminatedParams => Bytes.ofString "unterminated parameter list"
  | separatorExpected => Bytes.ofString "expected , or ) in parameter list"
  | argumentNotLiteral param =>
    Bytes.ofString "argument '" ++ param ++ Bytes.ofString "' is not a literal"
  | argumentsExpected => Bytes.ofString "expected ( after function name"
  | textAfterDefinition => Bytes.ofString "unexpected characters after definition"
  | numberExpected => Bytes.ofString "arithmetic needs a number"
  | textAfterSlot => Bytes.ofString "unexpected characters in tag"
  | zeroDivisor => []

/-- Where a template cannot be read. -/
inductive Place where
  /-- So many bytes before the end. -/
  | left (n : Nat)
  /-- In the tag of this name. -/
  | name (s : Bytes)
  deriving DecidableEq, Repr

/-- The same place when so many bytes follow the end. -/
def Place.followedBy (n : Nat) : Place → Place
  | left k => left (k + n)
  | name s => name s

end Fault

/-- Why and where a template cannot be read. -/
structure Fault where
  reason : Fault.Reason
  place : Fault.Place
  deriving DecidableEq, Repr

namespace Fault

/-- The same fault when so many bytes follow the end. -/
def followedBy (n : Nat) (f : Fault) : Fault := { f with place := f.place.followedBy n }

/-- The failure to report for a template of the given length. -/
def failure (length : Nat) (f : Fault) : Failure where
  kind := f.reason.kind
  name := match f.place with
    | .left n => Bytes.ofString "offset " ++ Bytes.ofNat (length - n)
    | .name s => s
  detail := f.reason.detail

/-- A reading that consists of two is successful when both are. -/
theorem bind_eq_ok {α β : Type} {x : Except Fault α} {f : α → Except Fault β} {b : β} :
    x >>= f = .ok b ↔ ∃ a, x = .ok a ∧ f a = .ok b := by
  cases x <;> simp [bind, Except.bind]

/-- A reading that consists of two fails when the first does, or the second behind it. -/
theorem bind_eq_error {α β : Type} {x : Except Fault α} {f : α → Except Fault β}
    {fault : Fault} :
    x >>= f = .error fault ↔ x = .error fault ∨ ∃ a, x = .ok a ∧ f a = .error fault := by
  cases x <;> simp [bind, Except.bind]

end Fault

end Stencil
