import Stencil.Proofs.PrintedNumbers

/-!
# Numbers written without a power of ten

From a millionth up to `10 ^ 21` and at zero, a double is written in digits with a point at most
(`Binary64.IsPlain`). The layout goes by the digits that were found and not by the double itself, but these
reach a power of ten no sooner than the double does (`Decimal.value_le_iff`), because the two ends of the
range are printed as themselves. So the text of a double is a number of the grammar if and only if the double
is in the range (`read?_write_of_isPlain`), and otherwise a number with something behind it that no number
goes on with (`write_of_not_isPlain`, `read?_of_excess`).
-/

namespace Stencil

open Ascii

namespace Decimal

open Binary64 Numeral

/-! ## Where the digits of a decimal lie -/

theorem lt_tenPow_iff {d : Decimal} (hd : d.digits ≠ 0) (e : ℤ) : d.value < 10 ^ e ↔ d.pointPlace ≤ e := by
  have hlow : ((10 ^ (digitCount d.digits - 1) : Nat) : ℚ) ≤ d.digits := by
    exact_mod_cast pow_digitCount_le (Nat.pos_of_ne_zero hd)
  have hhigh : (d.digits : ℚ) < (10 ^ digitCount d.digits : Nat) := by
    exact_mod_cast lt_pow_digitCount d.digits
  rw [cast_tenPow_pred (digitCount_pos _)] at hlow
  rw [cast_tenPow] at hhigh
  rw [value, pointPlace]
  constructor
  · intro h
    have hpower : (10 : ℚ) ^ (digitCount d.digits - 1 + d.exponent) < 10 ^ e := by
      rw [tenPow_add]
      exact (mul_le_mul_of_nonneg_right hlow (tenPow_pos _).le).trans_lt h
    have hlt := tenPow_lt_iff.mp hpower
    omega
  · intro h
    refine (mul_lt_mul_of_pos_right hhigh (tenPow_pos _)).trans_le ?_
    rw [← tenPow_add]
    exact tenPow_mono h

/-- The layout goes by the size of the decimal. -/
theorem isPositional_iff {d : Decimal} (hd : d.digits ≠ 0) :
    d.IsPositional ↔ (mk 1 (-6)).value ≤ d.value ∧ d.value < (mk 1 21).value := by
  have hvalue (e : ℤ) : (mk 1 e).value = 10 ^ e := by rw [value, Nat.cast_one, one_mul]
  rw [hvalue, hvalue, ← not_lt, lt_tenPow_iff hd, lt_tenPow_iff hd, not_le]
  exact Iff.rfl

/-- A decimal that is printed as itself is reached by the printed digits no sooner and no later than by the
numbers. -/
theorem value_le_iff {m : Nat} (h0 : 0 < m) (hm : m < infinite) {b : Decimal}
    (hb : ofMagnitude b.magnitude = b) : b.value ≤ (ofMagnitude m).value ↔ b.magnitude ≤ m := by
  have hnearest := nearest_ofMagnitude h0 hm
  constructor
  · exact b.nearest_magnitude.mono hnearest
  · intro hle
    rcases Nat.eq_or_lt_of_le hle with rfl | hlt
    · rw [hb]
    · -- Were the printed digits below the bound, they would read back as no more than the bound.
      by_contra hvalue
      have hge := hnearest.mono b.nearest_magnitude (not_le.mp hvalue).le
      omega

end Decimal

namespace Binary64

open Numeral

/-! ## The range -/

/-- Zero, and the numbers from a millionth up to `10 ^ 21`, the latter left out. The bounds are doubles, as
the numbers are: there is no double `10 ^ -6`, and the one that is nearest to it is in the range. -/
def IsPlain (x : Binary64) : Prop :=
  x.isZero ∨ (Decimal.mk 1 (-6)).magnitude ≤ x.magnitude ∧ x.magnitude < (Decimal.mk 1 21).magnitude

instance (x : Binary64) : Decidable x.IsPlain := inferInstanceAs (Decidable (_ ∨ _))

/-- What a number becomes when its text is read: zero loses its sign. -/
def unsigned (x : Binary64) : Binary64 := if x.isZero then ⟨0⟩ else x

/-- The same range by the values that doubles stand for. Of the doubles below a millionth only the one that
is nearest to it, which has these bits, is in the range. -/
def InRange (x : Binary64) : Prop :=
  x.isZero ∨ x.magnitude = 0x3eb0c6f7a0b5ed8d ∨ 1 / 10 ^ 6 ≤ value x.magnitude ∧ value x.magnitude < 10 ^ 21

theorem isPlain_iff_inRange (x : Binary64) : x.IsPlain ↔ x.InRange := by
  have hlow := (Decimal.mk 1 (-6)).nearest_magnitude
  have hmillionth : (Decimal.mk 1 (-6)).value = 1 / 10 ^ 6 := by norm_num [Decimal.value]
  have hbits : (Decimal.mk 1 (-6)).magnitude = 0x3eb0c6f7a0b5ed8d := by decide +kernel
  have hlt : (Decimal.mk 1 (-6)).magnitude < infinite := by rw [hbits]; decide
  have hhigh : value (Decimal.mk 1 21).magnitude = 10 ^ 21 := by
    have hunits : units (Decimal.mk 1 21).magnitude = 10 ^ 21 * 1 <<< 1074 := by decide +kernel
    have hpos : ((1 <<< 1074 : Nat) : ℚ) ≠ 0 := by exact_mod_cast (Decimal.one_shiftLeft_pos 1074).ne'
    rw [Decimal.value_eq_div, hunits, Nat.cast_mul, mul_div_cancel_right₀ _ hpos, Nat.cast_pow]
    rfl
  rw [IsPlain, InRange, ← hmillionth, ← hbits, ← hhigh, value_strictMono.lt_iff_lt]
  refine or_congr_right ⟨?_, ?_⟩
  · rintro ⟨hle, hbelow⟩
    rcases Nat.eq_or_lt_of_le hle with heq | hgt
    · exact .inl heq.symm
    · exact .inr ⟨(hlow.lt_value hlt hgt).le, hbelow⟩
  · rintro (heq | ⟨hle, hbelow⟩)
    · refine ⟨heq.ge, ?_⟩
      rw [heq, hbits]
      decide +kernel
    · refine ⟨?_, hbelow⟩
      by_contra hnot
      exact absurd (hlow.value_lt (Nat.lt_of_not_le hnot)) (not_lt.mpr hle)

theorem isFinite_of_isPlain {x : Binary64} (h : x.IsPlain) : x.isFinite := by
  refine decide_eq_true ?_
  rcases h with hzero | ⟨-, hlt⟩
  · rw [show x.magnitude = 0 from eq_of_beq hzero]
    decide
  · exact hlt.trans_le (Decimal.nearest_magnitude _).le

theorem isPlain_iff_isPositional {x : Binary64} (hfinite : x.isFinite) (hzero : ¬x.isZero) :
    x.IsPlain ↔ (Decimal.ofMagnitude x.magnitude).IsPositional := by
  have hpos := magnitude_pos hzero
  have hlt := of_decide_eq_true hfinite
  have hdigits := Decimal.digits_ne_zero_of_nearest hpos (Decimal.nearest_ofMagnitude hpos hlt)
  have hlow : Decimal.ofMagnitude (Decimal.mk 1 (-6)).magnitude = ⟨1, -6⟩ := by decide +kernel
  have hhigh : Decimal.ofMagnitude (Decimal.mk 1 21).magnitude = ⟨1, 21⟩ := by decide +kernel
  rw [Decimal.isPositional_iff hdigits, ← not_le, Decimal.value_le_iff hpos hlt hlow,
    Decimal.value_le_iff hpos hlt hhigh, not_le, IsPlain, or_iff_right hzero]

/-! ## The text of a number in the range -/

theorem read?_signed {b : UInt8} (hb : b ≠ minus) (rest : Bytes) (negative : Bool) :
    read? (if negative then minus :: b :: rest else b :: rest) = readUnsigned? negative (b :: rest) := by
  cases negative with
  | false => rw [if_neg (by decide), read?, if_neg hb]
  | true => rw [if_pos rfl, read?, if_pos rfl]

theorem readUnsigned?_of_split? {s whole fraction : Bytes} (h : split? s = some (whole, fraction))
    (negative : Bool) :
    readUnsigned? negative s = some (ofMagnitude negative
      (Decimal.mk (natOfDigits (whole ++ fraction)) (-fraction.length)).magnitude) := by
  rw [readUnsigned?, h, Option.map_some]

/-- The text of a number in the range is read as this number. -/
theorem read?_write_of_isPlain {x : Binary64} (h : x.IsPlain) : read? x.write = some x.unsigned := by
  have hfinite := isFinite_of_isPlain h
  by_cases hzero : x.isZero
  · have hread : read? [zero] = some ⟨0⟩ := by decide +kernel
    rw [write_of_isZero hzero, hread, unsigned, if_pos hzero]
  · obtain ⟨b, rest, hwrite, hb⟩ := (Decimal.ofMagnitude x.magnitude).exists_write_eq_cons
    have hnearest := Decimal.nearest_ofMagnitude (magnitude_pos hzero) (of_decide_eq_true hfinite)
    obtain ⟨whole, fraction, hsplit, hvalue⟩ := (Decimal.write_cases _).resolve_right
      (fun hpower => hpower.1 ((isPlain_iff_isPositional hfinite hzero).mp h)) |>.2
    rw [← hvalue] at hnearest
    rw [write_of_isFinite hfinite hzero, hwrite, read?_signed hb, ← hwrite, readUnsigned?_of_split? hsplit,
      Decimal.magnitude_eq_of_nearest hnearest, ofMagnitude_magnitude, unsigned, if_neg hzero]

/-! ## The text of any other number -/

/-- The text of a number out of the range: a number of the grammar with a power of ten behind it, or a
word. -/
inductive Excess : Bytes → Prop
  | power {number power : Bytes} {x : Binary64} {exponent : ℤ} (hnumber : read? number = some x)
      (hpower : power? power = some exponent) : Excess (number ++ powerMark :: power)
  | nan : Excess (Bytes.ofString "NaN")
  | infinity : Excess (Bytes.ofString "Infinity")
  | negativeInfinity : Excess (Bytes.ofString "-Infinity")

theorem write_of_not_isFinite {x : Binary64} (h : ¬x.isFinite) : Excess x.write := by
  have hzero : ¬x.isZero := fun hzero => h (isFinite_of_isPlain (.inl hzero))
  simp only [write, if_neg hzero, if_neg h]
  split
  · exact .nan
  · split
    · exact .negativeInfinity
    · exact .infinity

theorem write_of_not_isPlain {x : Binary64} (h : ¬x.IsPlain) : Excess x.write := by
  by_cases hfinite : x.isFinite
  · have hzero : ¬x.isZero := fun hzero => h (.inl hzero)
    obtain ⟨-, s, power, whole, fraction, exponent, hwrite, hsplit, hpower, -⟩ :=
      (Decimal.write_cases _).resolve_left
        fun hpositional => h ((isPlain_iff_isPositional hfinite hzero).mpr hpositional.1)
    obtain ⟨b, rest, rfl, hb⟩ := (Grammar.isUnsigned_of_split? hsplit).exists_cons
    have hread := read?_signed (ne_minus_of_inNumber hb) rest x.isNegative
    rw [readUnsigned?_of_split? hsplit] at hread
    have hexcess := Excess.power hread hpower
    rw [write_of_isFinite hfinite hzero, hwrite]
    cases hnegative : x.isNegative with
    | false =>
      rw [hnegative] at hexcess
      exact hexcess
    | true =>
      rw [hnegative] at hexcess
      exact hexcess
  · exact write_of_not_isFinite hfinite

theorem startsNumber_of_read? {s : Bytes} {x : Binary64} (h : read? s = some x) :
    ∀ b ∈ s, Tag.startsNumber b := by
  have hunsigned {t : Bytes} (ht : Grammar.IsUnsigned t) : ∀ b ∈ t, Tag.startsNumber b := fun b hb =>
    .inr (by simpa [inNumber, or_comm] using Grammar.inNumber_of_isUnsigned ht b hb)
  rcases Grammar.read?_eq_some_iff.mp ⟨x, h⟩ with ht | ht
  · exact hunsigned ht
  · exact List.forall_mem_cons.mpr ⟨.inl rfl, hunsigned ht⟩

/-- The text of a number out of the range is no number of the grammar. -/
theorem read?_of_excess {s : Bytes} (h : Excess s) : read? s = none := by
  cases h with
  | power hnumber hpower =>
    refine Option.eq_none_iff_forall_ne_some.mpr fun x hx => ?_
    have hmark := startsNumber_of_read? hx powerMark (by simp)
    exact absurd hmark (by decide)
  | nan => decide
  | infinity => decide
  | negativeInfinity => decide

end Binary64

end Stencil
