import Stencil.Bytes

/-!
# Lines on the console

Messages are labelled lines. A label is set in colour by terminal escape sequences. What a message
quotes ends at its first NUL byte.
-/

namespace Stencil.Console

/-- What a message is about. -/
inductive Label where
  | info
  | error
  | warning
  | debug
  deriving DecidableEq, Repr

/-- A label between its escape sequences. -/
def Label.write : Label → Bytes
  | info => Bytes.ofString "\x1b[32m[   INFO   ]\x1b[0m "
  | error => Bytes.ofString "\x1b[1;31m[   ERROR  ]\x1b[0m "
  | warning => Bytes.ofString "\x1b[33m[  WARNING ]\x1b[0m "
  | debug => Bytes.ofString "\x1b[35m[   DEBUG  ]\x1b[0m "

/-- A part of a message: words of the program, or bytes that are quoted. -/
inductive Part where
  | words (s : String)
  | quote (s : Bytes)

def Part.write : Part → Bytes
  | words s => Bytes.ofString s
  | quote s => s.untilNul

/-- A labelled line. -/
def line (label : Label) (parts : List Part) : Bytes :=
  label.write ++ parts.flatMap Part.write ++ [Ascii.newline]

end Stencil.Console
