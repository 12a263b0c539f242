import Stencil.Bytes
import Stencil.Number.Decimal

/-!
# Numerals

How numbers are read and written.

* `Numeral.read?` accepts an optional minus sign and digits with at most one point among, before or
  after them, and gives the nearest double.
* `Binary64.write` prints the decimal of a number positionally as long as that needs no more than 21
  places before the point or five zeros after it, and with an exponent otherwise.
-/

namespace Stencil

/-! ## Reading -/

namespace Numeral

/-- The natural number that a string of digits denotes. -/
def natOfDigits (digits : Bytes) : Nat :=
  digits.foldl (fun n b => 10 * n + (b.toNat - Ascii.zero.toNat)) 0

/-- The digits before and after the point of an unsigned numeral, if it is one. -/
def split? (s : Bytes) : Option (Bytes × Bytes) :=
  let whole := s.takeWhile Ascii.isDigit
  let parts? := match s.dropWhile Ascii.isDigit with
    | [] => some (whole, [])
    | b :: fraction =>
      if b = Ascii.point ∧ fraction.all Ascii.isDigit then some (whole, fraction) else none
  parts?.filter fun (whole, fraction) => !(whole ++ fraction).isEmpty

/-- The double nearest to an unsigned numeral, with the given sign. -/
def readUnsigned? (negative : Bool) (s : Bytes) : Option Binary64 :=
  (split? s).map fun (whole, fraction) =>
    .ofMagnitude negative (Decimal.mk (natOfDigits (whole ++ fraction)) (-fraction.length)).magnitude

/-- The double that a numeral denotes; `none` if the bytes are no numeral. -/
def read? (s : Bytes) : Option Binary64 :=
  match s with
  | [] => none
  | b :: rest => if b = Ascii.minus then readUnsigned? true rest else readUnsigned? false s

end Numeral

/-! ## Writing -/

/-- Which numbers are written without an exponent. -/
structure Positional where
  /-- The most digits, padding zeros included, in front of the point. -/
  places : Int
  /-- Fewer zeros than this follow the point. -/
  zeros : Int

/-- Up to 21 places before the point and fewer than six zeros after it. -/
def Decimal.positional : Positional := ⟨21, 6⟩

/-- A decimal in digits, with its point after the first `digits.length + exponent` of them. -/
def Decimal.write (d : Decimal) : Bytes :=
  let digits := Bytes.ofNat d.digits
  let point := digits.length + d.exponent
  if 0 ≤ d.exponent ∧ point ≤ positional.places then
    digits ++ List.replicate d.exponent.toNat Ascii.zero
  else if 0 < point ∧ point ≤ positional.places then
    digits.take point.toNat ++ Ascii.point :: digits.drop point.toNat
  else if point ≤ 0 ∧ -point < positional.zeros then
    Ascii.zero :: Ascii.point :: (List.replicate (-point).toNat Ascii.zero ++ digits)
  else
    let fraction := if digits.length ≤ 1 then [] else Ascii.point :: digits.drop 1
    let sign := if point - 1 < 0 then Ascii.minus else Ascii.plus
    digits.take 1 ++ fraction ++ Bytes.ofString "e" ++ sign :: Bytes.ofNat (point - 1).natAbs

/-- The text of a number. Zero has no sign. -/
def Binary64.write (x : Binary64) : Bytes :=
  if x.isNaN then Bytes.ofString "NaN"
  else if x.isZero then [Ascii.zero]
  else
    let text := if x.isFinite then (Decimal.ofMagnitude x.magnitude).write else Bytes.ofString "Infinity"
    if x.isNegative then Ascii.minus :: text else text

end Stencil
