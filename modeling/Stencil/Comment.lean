import Stencil.Bytes

/-!
# Comments

A comment runs from the first `//` of a line to the end of the line. The newline is not part of it,
so that a template has as many lines without its comments as with them.
-/

namespace Stencil.Comment

/-- The bytes that are not part of a comment, where `inside` says whether a comment is open. -/
def stripFrom : (inside : Bool) → Bytes → Bytes
  | _, [] => []
  | true, b :: rest => if b = Ascii.newline then b :: stripFrom false rest else stripFrom true rest
  | false, b :: rest =>
    if b = Ascii.slash ∧ rest.head? = some Ascii.slash then stripFrom true rest
    else b :: stripFrom false rest

/-- A template without its comments. -/
def strip (text : Bytes) : Bytes := stripFrom false text

end Stencil.Comment
