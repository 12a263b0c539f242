import Std.Data.ExtTreeMap
import Stencil.Escape

/-!
# Views

A view is a range of a buffer that it shares with other views. Its start moves forward as bytes are
read, and never past its end. Positions are 64-bit words: a sum of them that is too large wraps. Here a
view has its buffer with it; `Heap` has the buffers apart and counts their views.
-/

namespace Stencil

structure View where
  /-- The whole buffer. -/
  buffer : Bytes
  /-- Where the view begins in the buffer. -/
  start : Nat
  /-- Where it ends. -/
  stop : Nat
  deriving DecidableEq, Repr

namespace View

/-- The sum of positions, as a word. -/
def wrap (n : Nat) : Nat := n % UInt64.size

/-- A view of a whole buffer. -/
def ofBytes (s : Bytes) : View := ⟨s, 0, s.length⟩

def length (v : View) : Nat := v.stop - v.start

/-- The bytes in view. -/
def toBytes (v : View) : Bytes := (v.buffer.take v.stop).drop v.start

/-- One byte further, unless nothing is left. -/
def advance (v : View) : View := if v.start < v.stop then { v with start := v.start + 1 } else v

/-- So many bytes further, but not past the end. -/
def skip (v : View) (n : Nat) : View := { v with start := min (wrap (v.start + n)) v.stop }

/-- Past the blank bytes at the start. -/
def trim (v : View) : View :=
  { v with start := v.start + (v.toBytes.takeWhile Ascii.isBlank).length }

/-- The view of `length` bytes from the place `offset` of this one on, as far as it reaches. -/
def slice (v : View) (offset length : Nat) : View :=
  let stop := min (wrap (v.start + offset + length)) v.stop
  { v with start := min (wrap (v.start + offset)) stop, stop }

/-- The byte at a place; a negative place counts from the end, around as often as needed. There is
none at the end or past it. -/
def byteAt? (v : View) (n : Int) : Option UInt8 :=
  if v.length = 0 then none
  else
    let place := if n < 0 then (n % v.length).toNat else n.toNat
    v.toBytes[place]?

/-- Do these bytes, up to their first NUL, stand in the view from a place on? -/
def matchesAt (v : View) (s : Bytes) (place : Nat) : Bool :=
  let wanted := s.untilNul
  let front := wrap (v.start + place)
  front + wanted.length ≤ v.stop && wanted.isPrefixOf (v.buffer.drop front)

/-- The view of the bytes up to the first unescaped `stop`, and the view of the rest. -/
def consume (v : View) (stop : UInt8) (escaped escapes : Bool) : View × View :=
  let place := v.start + (splitUnescaped stop escapes escaped v.toBytes).1.length
  ({ v with stop := place }, { v with start := place })

/-! ## Several views -/

/-- What can be done to a view, and the number under which a view that is made is kept. -/
inductive Step where
  | make (text : Bytes) (target : Nat)
  | copy (target : Nat)
  | slice (offset length : Nat) (target : Nat)
  | consume (stop : UInt8) (escaped escapes : Bool) (target : Nat)
  | advance
  | skip (n : Nat)
  | trim
  | byteAt (n : Int)
  | matchesAt (s : Bytes) (place : Nat)
  | drop
  deriving Repr

/-- What a step tells. -/
inductive Answer where
  | nothing
  | made (v : View)
  | byte (b : Option UInt8)
  | matched (b : Bool)
  deriving Repr

end View

/-- Views under numbers. -/
abbrev Views := Std.ExtTreeMap Nat View

/-- A step on the view with a number. A view that is made replaces the one with its number. -/
def Views.step (views : Views) (i : Nat) (step : View.Step) : Option (View.Answer × Views) :=
  views[i]?.map fun v =>
    match step with
    | .make text target => (.made (.ofBytes text), views.insert target (.ofBytes text))
    | .copy target => (.made v, views.insert target v)
    | .slice offset length target =>
      (.made (v.slice offset length), views.insert target (v.slice offset length))
    | .consume stop escaped escapes target =>
      let (before, after) := v.consume stop escaped escapes
      (.made before, (views.insert i after).insert target before)
    | .advance => (.nothing, views.insert i v.advance)
    | .skip n => (.nothing, views.insert i (v.skip n))
    | .trim => (.nothing, views.insert i v.trim)
    | .byteAt n => (.byte (v.byteAt? n), views)
    | .matchesAt s place => (.matched (v.matchesAt s place), views)
    | .drop => (.nothing, views.erase i)

end Stencil
