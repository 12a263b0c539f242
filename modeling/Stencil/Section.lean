import Stencil.Value

/-!
# Sections

The parts of a template, in the order in which they stand in it: stretches of plain text, definitions
of variables, and slots. The spans of definitions are ranges of the source; a definition leaves
nothing behind. The spans of texts and slots are ranges of the text that is left, which holds each
slot as it was written.
-/

namespace Stencil

/-- The range from `start` up to `stop`. -/
structure Span where
  start : Nat
  stop : Nat
  deriving DecidableEq, Repr

/-- The arithmetic a slot may ask for. -/
inductive Operator where
  | add
  | subtract
  | multiply
  | divide
  deriving DecidableEq, Repr

namespace Operator

def symbol : Operator → UInt8
  | add => Ascii.plus
  | subtract => Ascii.minus
  | multiply => Ascii.star
  | divide => Ascii.slash

def ofSymbol? (b : UInt8) : Option Operator :=
  [add, subtract, multiply, divide].find? (·.symbol == b)

def apply : Operator → Binary64 → Binary64 → Binary64
  | add, x, y => x + y
  | subtract, x, y => x - y
  | multiply, x, y => x * y
  | divide, x, y => x / y

end Operator

/-- An operator and its right operand. -/
structure Operation where
  operator : Operator
  operand : Binary64
  deriving DecidableEq, Repr

/-- No operation divides by a literal zero. -/
def Operation.dividesByZero (o : Operation) : Bool := o.operator = .divide && o.operand.isZero

/-- What a definition binds a name to. `content` is a number, a text, or a function name with the
arguments of the call; `params` are the parameters the definition declares. -/
structure Definition where
  name : Bytes
  content : Variable
  params : List Param := []
  deriving DecidableEq, Repr

/-- The variable a definition makes: it declares what the definition declares, but a function call
keeps its arguments, and a content of unknown kind keeps neither. -/
def Definition.variable (d : Definition) : Variable :=
  match d.content.kind with
  | .number | .text => { d.content with params := d.params }
  | .function => d.content
  | .unknown => { d.content with params := [] }

/-- A place to be filled in. A raw slot takes a text as it is and does not read it as a template. -/
structure Slot where
  name : Bytes
  params : List Param := []
  raw : Bool := false
  operation : Option Operation := none
  deriving DecidableEq, Repr

/-- A part of a template. -/
inductive Section where
  | text (span : Span)
  | definition (span : Span) (d : Definition)
  | slot (span : Span) (s : Slot)
  /-- A part of no known kind, under the number of its kind. -/
  | unknown (code : Nat) (name : Bytes)
  deriving DecidableEq, Repr

/-- A template taken apart: its sections, and its text without the definitions. -/
structure Document where
  text : Bytes
  sections : List Section
  deriving DecidableEq, Repr

/-- The slots of a document with their spans, in the order of its sections. -/
def Document.slots (d : Document) : List (Span × Slot) :=
  d.sections.filterMap fun
    | .slot span s => some (span, s)
    | _ => none

end Stencil
