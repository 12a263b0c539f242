import Stencil.Proofs.Escaping
import Stencil.Template

/-!
# How tags are written

A tag written out with everything that can be chosen: the runs of blanks between its tokens, the
quotes of its strings, and the digits of its numbers. Strings are written with `escape`, so that they
can hold any bytes; numbers in digits, with a point among them or without. `Spelling.write` is what
stands in the template, and `Spelling.document` is the document that a template of this one tag ought
to be.
-/

namespace Stencil.Spelling

open Ascii

/-! ## Tokens -/

/-- A run of blank bytes, which may be empty. -/
structure Blanks where
  bytes : Bytes
  blank : Bytes.isBlank bytes

/-- The name of a variable or of a function. -/
structure Name where
  bytes : Bytes
  starts : Tag.startsName bytes
  nameBytes : bytes.all isNameByte

/-- One digit or more. -/
structure Digits where
  bytes : Bytes
  nonempty : bytes ≠ []
  digits : bytes.all isDigit

/-- A number in digits. -/
structure Number where
  negative : Bool
  whole : Digits
  fraction : Option Digits

namespace Number

/-- The digits behind the point. -/
def fractionBytes (n : Number) : Bytes := n.fraction.elim [] Digits.bytes

def write (n : Number) : Bytes :=
  (if n.negative then [minus] else []) ++ n.whole.bytes
    ++ n.fraction.elim [] fun fraction => point :: fraction.bytes

/-- The double nearest to the number. -/
def value (n : Number) : Binary64 :=
  .ofMagnitude n.negative
    (Decimal.mk (Numeral.natOfDigits (n.whole.bytes ++ n.fractionBytes))
      (-n.fractionBytes.length)).magnitude

end Number

/-- The two kinds of quotes. -/
inductive Quote where
  | single
  | double
  deriving DecidableEq, Repr

def Quote.byte : Quote → UInt8
  | single => singleQuote
  | double => doubleQuote

/-- A string between quotes of a kind, or a number. -/
inductive Literal where
  | text (quote : Quote) (content : Bytes)
  | number (n : Number)

namespace Literal

def write : Literal → Bytes
  | text quote content => quote.byte :: escape quote.byte content ++ [quote.byte]
  | number n => n.write

def value : Literal → Value
  | text _ content => .text content
  | number n => .number n.value

end Literal

/-! ## Parts of a tag -/

/-- An argument and the blanks on both sides of it. -/
structure Argument where
  before : Blanks
  literal : Literal
  behind : Blanks

def Argument.write (a : Argument) : Bytes := a.before.bytes ++ a.literal.write ++ a.behind.bytes

/-- What is passed to a call: a value without a name, which nothing requires. -/
def Argument.param (a : Argument) : Param := { value := a.literal.value }

/-- Arguments in parentheses. There may be blanks in front of either parenthesis, the ones around the
arguments aside. -/
structure Arguments where
  before : Blanks
  list : List Argument
  inside : Blanks

namespace Arguments

def write (a : Arguments) : Bytes :=
  a.before.bytes ++ openParen :: (List.intercalate [comma] (a.list.map Argument.write)
    ++ a.inside.bytes ++ [closeParen])

def params (a : Arguments) : List Param := a.list.map Argument.param

end Arguments

/-- An operation with blanks around its operator. It does not divide by a number that reads as zero. -/
structure Arithmetic where
  before : Blanks
  operator : Operator
  between : Blanks
  operand : Number
  allowed : Operation.dividesByZero ⟨operator, operand.value⟩ = false

namespace Arithmetic

def write (a : Arithmetic) : Bytes :=
  a.before.bytes ++ a.operator.symbol :: (a.between.bytes ++ a.operand.write)

def operation (a : Arithmetic) : Operation := ⟨a.operator, a.operand.value⟩

end Arithmetic

/-- What a definition binds its name to: a literal, or the call of a function. -/
inductive Content where
  | literal (l : Literal)
  | call (function : Name) (arguments : Arguments)

namespace Content

def write : Content → Bytes
  | literal l => l.write
  | call function arguments => function.bytes ++ arguments.write

/-- A literal makes a variable of its own kind, which holds what is written and declares nothing. -/
def bound : Content → Variable
  | literal (.text _ content) => { kind := .text, value := .text content }
  | literal (.number n) => { kind := .number, value := .number n.value }
  | call function arguments =>
    { kind := .function, value := .text function.bytes, params := arguments.params }

end Content

end Spelling

/-! ## Tags -/

open Spelling in
/-- A tag as it is written between its braces. A mark stands directly in front of the name. -/
inductive Spelling where
  | slot (before : Blanks) (raw : Bool) (name : Name) (arguments : Option Arguments)
    (arithmetic : Option Arithmetic) (behind : Blanks)
  | definition (before : Blanks) (name : Name) (beforeEquals behindEquals : Blanks) (content : Content)
    (behind : Blanks)

namespace Spelling

open Ascii

/-- The bytes between the braces. -/
def body : Spelling → Bytes
  | slot before raw name arguments arithmetic behind =>
    before.bytes ++ (if raw then [atSign] else []) ++ name.bytes
      ++ arguments.elim [] Arguments.write ++ arithmetic.elim [] Arithmetic.write ++ behind.bytes
  | definition before name beforeEquals behindEquals content behind =>
    before.bytes ++ name.bytes ++ beforeEquals.bytes ++ equals :: (behindEquals.bytes ++ content.write
      ++ behind.bytes)

/-- The tag with its braces. -/
def write (t : Spelling) : Bytes := Piece.opener ++ t.body ++ Piece.closer

/-- What the tag says. -/
def tag : Spelling → Tag
  | slot _ raw name arguments arithmetic _ =>
    .slot
      { name := name.bytes, params := arguments.elim [] Arguments.params, raw,
        operation := arithmetic.map Arithmetic.operation }
  | definition _ name _ _ content _ => .definition { name := name.bytes, content := content.bound }

/-- The document of a template that is this tag alone: one section, which spans the whole template. A
slot is kept in the text as it was written, and a definition leaves no text. -/
def document (t : Spelling) : Document :=
  match t.tag with
  | .slot s => { text := t.write, sections := [.slot ⟨0, t.write.length⟩ s] }
  | .definition d => { text := [], sections := [.definition ⟨0, t.write.length⟩ d] }

end Spelling

end Stencil
