import Stencil.Number.Binary64

/-!
# Decimals near a double-precision number

A decimal is a natural number of units of a power of ten. `Decimal.magnitude` reads it as the nearest
double, and `Decimal.ofMagnitude` finds a decimal for a double: among its nearest decimals with 1, 2,
3 and so on significant digits, the first that reads back as the same double. Seventeen digits always
do.
-/

namespace Stencil

/-- The number `digits * 10 ^ exponent`. -/
structure Decimal where
  digits : Nat
  exponent : Int
  deriving DecidableEq, Repr

namespace Decimal

open Binary64 (units roundDiv nearestMagnitude)

/-- The magnitude of the double nearest to a decimal. -/
def magnitude (d : Decimal) : Nat :=
  if 0 ≤ d.exponent then nearestMagnitude (d.digits * Nat.pow 10 d.exponent.toNat) 1
  else nearestMagnitude d.digits (Nat.pow 10 (-d.exponent).toNat)

/-- How many decimal digits a natural number is written with. -/
def digitCount (n : Nat) : Nat := (Nat.toDigits 10 n).length

/-- The position of the leading digit of `n / d`: the power of ten that is just above the quotient.
Below one it is read off the inverse, which has as many digits as the quotient has leading zeros. -/
def order (n d : Nat) : Int :=
  if d ≤ n then digitCount (n / d) else 1 - digitCount ((d - 1) / n)

/-- The decimal with `count` significant digits that is nearest to `n / d`, ties to even. -/
def rounded (n d count : Nat) : Decimal :=
  let exponent := order n d - count
  if 0 ≤ exponent then ⟨roundDiv n (d * Nat.pow 10 exponent.toNat), exponent⟩
  else ⟨roundDiv (n * Nat.pow 10 (-exponent).toNat) d, exponent⟩

/-- The same number without trailing zeros among its digits. -/
def normalize (d : Decimal) : Decimal :=
  if d.digits ≠ 0 ∧ d.digits % 10 = 0 then normalize ⟨d.digits / 10, d.exponent + 1⟩ else d
termination_by d.digits
decreasing_by omega

/-- The decimal that stands for a finite magnitude: rounded to as few digits as read back. -/
def ofMagnitude (m : Nat) : Decimal :=
  let candidate := rounded (units m) (1 <<< 1074)
  let count := ((List.range' 1 16).find? fun count => (candidate count).magnitude == m).getD 17
  (candidate count).normalize

end Decimal

end Stencil
