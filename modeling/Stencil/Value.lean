import Stencil.Number.Numeral

/-!
# Values and variables

A value is a number or a text. A variable gives a value a kind, which decides what a slot naming it
becomes: the kind of a text variable makes its text a template of its own, and the kind of a function
variable makes its text the name of a function to call.
-/

namespace Stencil

/-- What slots resolve to, what variables hold, and what functions take and give. -/
inductive Value where
  | number (x : Binary64)
  | text (s : Bytes)
  deriving DecidableEq, Repr

instance : Inhabited Value := ⟨.text []⟩

namespace Value

def isNumber : Value → Bool
  | number _ => true
  | text _ => false

/-- How a value is written into a document. -/
def write : Value → Bytes
  | number x => x.write
  | text s => s

/-- The text of a value that is a text, and nothing for a number. -/
def textOnly : Value → Bytes
  | number _ => []
  | text s => s

end Value

/-- A declared parameter or an argument. A declaration has a name and either is required or has a
default, its value; an argument has a value only. -/
structure Param where
  name : Bytes := []
  value : Value := default
  required : Bool := false
  deriving DecidableEq, Repr

/-- What a variable stands for. -/
inductive Kind where
  | number
  | text
  | function
  /-- No slot can be resolved to a variable of this kind. -/
  | unknown
  deriving DecidableEq, Repr

/-- The word for a kind. -/
def Kind.write : Kind → Bytes
  | number => Bytes.ofString "number"
  | text => Bytes.ofString "string"
  | function => Bytes.ofString "function"
  | unknown => Bytes.ofString "unknown"

/-- An entry of an environment. The parameters of a function variable are the arguments of its call,
those of a text variable are declared. -/
structure Variable where
  kind : Kind
  value : Value
  params : List Param := []
  deriving DecidableEq, Repr

/-- The variable that holds a value and declares nothing. -/
def Variable.ofValue : Value → Variable
  | .number x => { kind := .number, value := .number x }
  | .text s => { kind := .text, value := .text s }

end Stencil
