/-!
# Double-precision numbers

A number is an IEEE 754 binary64 pattern. Without its sign bit a pattern is a natural number, its
magnitude, and magnitudes are ordered as the values are. Every finite value is a whole number of
units of `2 ^ -1074` (`units`), so that exact arithmetic on natural numbers decides everything that
is said about digits:

* `roundDiv`: the natural number nearest to a quotient, ties to the even one;
* `nearestMagnitude`: the magnitude nearest to a quotient, ties to the even significand.

Arithmetic is that of the machine.
-/

namespace Stencil

/-- A double-precision number, as its bit pattern: equality tells the two zeros apart. -/
structure Binary64 where
  bits : UInt64
  deriving DecidableEq, Repr

namespace Binary64

/-! ## The parts of a pattern -/

def isNegative (x : Binary64) : Bool := 1 <<< 63 ≤ x.bits.toNat

/-- The pattern without its sign bit. -/
def magnitude (x : Binary64) : Nat := x.bits.toNat % (1 <<< 63)

/-- The number with the given sign and magnitude. -/
def ofMagnitude (negative : Bool) (m : Nat) : Binary64 :=
  ⟨UInt64.ofNat (if negative then (1 <<< 63) + m else m)⟩

/-- The magnitude of the infinities. The finite magnitudes are below it, the ones of NaNs above. -/
def infinite : Nat := 2047 <<< 52

def isFinite (x : Binary64) : Bool := x.magnitude < infinite

def isNaN (x : Binary64) : Bool := infinite < x.magnitude

/-- Both zeros are zero. -/
def isZero (x : Binary64) : Bool := x.magnitude == 0

/-- The value of a finite magnitude in units of `2 ^ -1074`: below `2 ^ 52` the magnitude itself, and
from there on its low 52 bits behind a leading one, doubled for each further step of the exponent. -/
def units (m : Nat) : Nat :=
  if m < 1 <<< 52 then m else ((1 <<< 52) + m % (1 <<< 52)) <<< (m / (1 <<< 52) - 1)

/-! ## Rounding -/

/-- The natural number nearest to `n / d`; of two that are equally near the even one. -/
def roundDiv (n d : Nat) : Nat :=
  if 2 * (n % d) < d ∨ 2 * (n % d) = d ∧ n / d % 2 = 0 then n / d else n / d + 1

/-- The magnitude nearest to `n / d`. The quotient is rounded to the finest grid on which it has no
more than 53 bits; a significand that rounds up to `2 ^ 53` carries into the exponent by itself, and
what would lie beyond the finite magnitudes is infinite. -/
def nearestMagnitude (n d : Nat) : Nat :=
  let scaled := n <<< 1074
  let shift := (scaled / d).log2 - 52
  min ((shift <<< 52) + roundDiv scaled (d <<< shift)) infinite

/-! ## Arithmetic -/

def toFloat (x : Binary64) : Float := Float.ofBits x.bits

def ofFloat (x : Float) : Binary64 := ⟨x.toBits⟩

instance : Add Binary64 := ⟨fun x y => ofFloat (x.toFloat + y.toFloat)⟩
instance : Sub Binary64 := ⟨fun x y => ofFloat (x.toFloat - y.toFloat)⟩
instance : Mul Binary64 := ⟨fun x y => ofFloat (x.toFloat * y.toFloat)⟩
instance : Div Binary64 := ⟨fun x y => ofFloat (x.toFloat / y.toFloat)⟩

end Binary64

end Stencil
