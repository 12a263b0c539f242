import Stencil.Bytes

/-!
# Normalized output

Rendered text has no blank bytes at its ends and no more than two newlines in a row. The normalizer
takes the text in portions of any size: blank bytes are held back until it is known whether they are
followed by anything, and are given up when the text ends.
-/

namespace Stencil

open Ascii

/-- Text with every run of three or more newlines cut to two. `seen` newlines stand directly in front
of it. -/
def squeezeNewlines : (seen : Nat) → Bytes → Bytes
  | _, [] => []
  | seen, b :: rest =>
    if b = newline then
      if seen < 2 then b :: squeezeNewlines (seen + 1) rest else squeezeNewlines (seen + 1) rest
    else b :: squeezeNewlines 0 rest

structure Normalizer where
  /-- Has anything come out that is not blank? Until then blank bytes are dropped. -/
  started : Bool := false
  /-- Blank bytes that are held back. -/
  pending : Bytes := []
  /-- What has come out. -/
  content : Bytes := []
  deriving DecidableEq, Repr

namespace Normalizer

/-- What comes out for a portion of text, and what is held back after it. Here the last of the held
bytes comes first, so that one more is put in front. -/
def feed : (started : Bool) → (held : Bytes) → Bytes → Bytes × Bool × Bytes
  | started, held, [] => ([], started, held)
  | started, held, b :: rest =>
    if isBlank b then feed started (if started then b :: held else held) rest
    else
      let (out, state) := feed true [] rest
      (squeezeNewlines 0 held.reverse ++ b :: out, state)

/-- Takes a portion of text; without `normalize` the portion comes out as it is. -/
def write (n : Normalizer) (normalize : Bool) (text : Bytes) : Normalizer :=
  if normalize then
    let (out, started, held) := feed n.started n.pending.reverse text
    { started, pending := held.reverse, content := n.content ++ out }
  else { n with content := n.content ++ text }

/-- Ends the text: what is still held back is blank and at the end. -/
def finish (n : Normalizer) : Normalizer := { n with pending := [] }

end Normalizer

/-- A whole text, normalized. -/
def normalize (text : Bytes) : Bytes := ((({} : Normalizer).write true text).finish).content

end Stencil
