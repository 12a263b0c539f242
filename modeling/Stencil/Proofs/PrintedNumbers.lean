import Mathlib.Data.List.Range
import Stencil.Proofs.NumberText

/-!
# Printed numbers

A finite double is printed with the first number of digits at which the nearest decimal reads back
(`Decimal.precision`); seventeen digits always do (`Decimal.magnitude_candidate`), so that what is printed
reads back (`Decimal.nearest_ofMagnitude`). The text denotes just this decimal, hence the double itself
(`Binary64.write_reads_back`).

Nothing shorter reads back, apart from one kind of number (`Binary64.lopsided_of_isShorter`): the decimal
with some digits that is nearest to a double reads back if any with as many digits does, because it is no
farther from the double. Only where the double is a power of two, with a larger gap above it than below it,
the nearest decimal can lie below and fall out while one above it reads back; then one digit more is enough
(`Decimal.precision_le_succ`).
-/

namespace Stencil

/-! ## How many digits are printed -/

namespace Decimal

open Binary64

/-- The decimal with so many digits that is nearest to a magnitude. -/
def candidate (m count : Nat) : Decimal := rounded (units m) (1 <<< 1074) count

/-- With how many digits a magnitude is printed, trailing zeros included. -/
def precision (m : Nat) : Nat :=
  ((List.range' 1 16).find? fun count => (candidate m count).magnitude == m).getD 17

theorem ofMagnitude_eq (m : Nat) : ofMagnitude m = (candidate m (precision m)).normalize := rfl

theorem one_shiftLeft_pos (k : Nat) : 0 < 1 <<< k := by
  rw [Nat.one_shiftLeft]
  exact Nat.two_pow_pos k

theorem value_eq_div (m : Nat) : Binary64.value m = (units m : ℚ) / ((1 <<< 1074 : Nat) : ℚ) := by
  unfold Binary64.value
  generalize 1074 = k
  rw [Nat.one_shiftLeft, Nat.cast_pow, Nat.cast_ofNat]

theorem units_pos {m : Nat} (h : 0 < m) : 0 < units m := by
  have hlt := value_strictMono h
  rw [value_zero, Binary64.value, div_pos_iff_of_pos_right (by positivity)] at hlt
  exact_mod_cast hlt

/-- The place of the leading digit of a magnitude. -/
def place (m : Nat) : ℤ := order (units m) (1 <<< 1074)

section

variable {m : Nat} (h0 : 0 < m)
include h0

theorem tenPow_place_le : (10 : ℚ) ^ (place m - 1) ≤ Binary64.value m := by
  rw [value_eq_div]
  exact (order_spec (units_pos h0) (one_shiftLeft_pos _)).1

theorem candidate_closest (e : Decimal) :
    |Binary64.value m - (candidate m e.significant).value| ≤ |Binary64.value m - e.value| := by
  rw [abs_sub_comm, abs_sub_comm (Binary64.value m), value_eq_div]
  exact rounded_closest (units_pos h0) (one_shiftLeft_pos _) e

end

theorem abs_candidate_sub_le (m count : Nat) :
    2 * |Binary64.value m - (candidate m count).value| ≤ 10 ^ (place m - count) := by
  rw [abs_sub_comm, value_eq_div]
  exact abs_rounded_sub_le _ (one_shiftLeft_pos _) count

theorem magnitude_eq_of_nearest {d : Decimal} {m : Nat} (h : Nearest d.value m) : d.magnitude = m :=
  d.nearest_magnitude.unique h

theorem nearest_of_magnitude_eq {d : Decimal} {m : Nat} (h : d.magnitude = m) : Nearest d.value m :=
  h ▸ d.nearest_magnitude

/-- A decimal grid that is finer than the gap below a magnitude has a number that reads back. -/
theorem magnitude_candidate_of_lt {p count : Nat} (hp : p + 1 < infinite)
    (hgrid : 10 ^ (place (p + 1) - count) < gap p) : (candidate (p + 1) count).magnitude = p + 1 := by
  have hnear := abs_candidate_sub_le (p + 1) count
  exact magnitude_eq_of_nearest (nearest_succ_of_near hp (by linarith) fun _ => by linarith)

/-- Seventeen digits read back: `10 ^ 16` is more than the `2 ^ 53` gaps from zero to a magnitude. -/
theorem magnitude_candidate {m count : Nat} (h0 : 0 < m) (hm : m < infinite) (hcount : 17 ≤ count) :
    (candidate m count).magnitude = m := by
  obtain ⟨p, rfl⟩ := Nat.exists_eq_add_of_lt h0
  rw [Nat.zero_add] at *
  refine magnitude_candidate_of_lt hm ?_
  have hplace := tenPow_place_le h0
  have hgap := value_succ_le p
  have hfine : (10 : ℚ) ^ (place (p + 1) - count) ≤ 10 ^ (-16 : ℤ) * 10 ^ (place (p + 1) - 1) := by
    rw [← tenPow_add]
    exact tenPow_mono (by omega)
  calc (10 : ℚ) ^ (place (p + 1) - count) ≤ 10 ^ (-16 : ℤ) * 10 ^ (place (p + 1) - 1) := hfine
    _ ≤ 10 ^ (-16 : ℤ) * (2 ^ 53 * gap p) :=
        mul_le_mul_of_nonneg_left (hplace.trans hgap) (tenPow_pos _).le
    _ = (10 ^ (-16 : ℤ) * 2 ^ 53) * gap p := (mul_assoc ..).symm
    _ < gap p := mul_lt_of_lt_one_left (gap_pos p) (by norm_num)

/-- The precision is the first at which the nearest decimal reads back. -/
theorem precision_spec {m : Nat} (h0 : 0 < m) (hm : m < infinite) :
    0 < precision m ∧ (candidate m (precision m)).magnitude = m ∧
      ∀ count, 0 < count → (candidate m count).magnitude = m → precision m ≤ count := by
  cases hfind : (List.range' 1 16).find? fun count => (candidate m count).magnitude == m with
  | none =>
    have hprecision : precision m = 17 := by rw [precision, hfind, Option.getD_none]
    rw [List.find?_range'_eq_none] at hfind
    rw [hprecision]
    refine ⟨by decide, magnitude_candidate h0 hm le_rfl, fun count hpos hback => ?_⟩
    by_contra hlt
    have hmiss := hfind count hpos (by omega)
    simp [hback] at hmiss
  | some k =>
    have hprecision : precision m = k := by rw [precision, hfind, Option.getD_some]
    rw [List.find?_range'_eq_some, List.mem_range'_1] at hfind
    obtain ⟨hback, hk, hleast⟩ := hfind
    rw [hprecision]
    refine ⟨hk.1, eq_of_beq hback, fun count hpos hback' => ?_⟩
    by_contra hlt
    have hmiss := hleast count hpos (by omega)
    simp [hback'] at hmiss

theorem value_ofMagnitude (m : Nat) : (ofMagnitude m).value = (candidate m (precision m)).value := by
  rw [ofMagnitude_eq, value_normalize]

theorem digits_ne_zero_of_nearest {m : Nat} (h0 : 0 < m) {d : Decimal} (h : Nearest d.value m) :
    d.digits ≠ 0 := by
  intro hzero
  rw [Decimal.value, hzero, Nat.cast_zero, zero_mul, ← value_zero] at h
  exact h0.ne' (h.unique (nearest_value (Nat.zero_le _)))

section

variable {m : Nat} (h0 : 0 < m) (hm : m < infinite)
include h0 hm

/-- The printed decimal reads back. -/
theorem nearest_ofMagnitude : Nearest (ofMagnitude m).value m := by
  rw [value_ofMagnitude]
  exact nearest_of_magnitude_eq (precision_spec h0 hm).2.1

/-- What has the value of the printed decimal has no more digits than were asked for. -/
theorem significant_le_precision {d : Decimal} (h : d.value = (ofMagnitude m).value) :
    d.significant ≤ precision m := by
  have hnearest := nearest_ofMagnitude h0 hm
  rw [value_ofMagnitude] at h hnearest
  have hdigits := digits_ne_zero_of_nearest h0 hnearest
  rw [significant, normalize_eq_of_value_eq (digits_ne_zero_of_nearest h0 (h ▸ hnearest)) hdigits h]
  exact significant_le_of_digits_le (precision_spec h0 hm).1 hdigits
    (digits_rounded_le _ (one_shiftLeft_pos _) _ (units_pos h0))

variable {e : Decimal} (he : Nearest e.value m)
include he

/-- No decimal with fewer digits reads back, be it the nearest with so many digits or not, except that one
above a lopsided magnitude may. -/
theorem precision_le_of_nearest (hside : e.value ≤ Binary64.value m ∨ ¬Lopsided m) :
    precision m ≤ e.significant := by
  obtain ⟨p, rfl⟩ := Nat.exists_eq_add_of_lt h0
  rw [Nat.zero_add] at *
  exact (precision_spec h0 hm).2.2 _ e.significant_pos
    (magnitude_eq_of_nearest (he.of_closer hm (candidate_closest h0 e) hside))

/-- Where the nearest decimal with as many digits does not read back, there are two numbers of its grid
around the magnitude, no farther from it than half of the gap above. -/
theorem tenPow_le_of_missed (hmiss : (candidate m e.significant).magnitude ≠ m) :
    10 ^ (place m - e.significant) ≤ gap m := by
  have hcloser := candidate_closest h0 e
  have hplace := tenPow_place_le h0
  obtain ⟨p, rfl⟩ := Nat.exists_eq_add_of_lt h0
  rw [Nat.zero_add] at *
  have habove : Binary64.value (p + 1) < e.value := by
    by_contra hle
    exact hmiss (magnitude_eq_of_nearest (he.of_closer hm hcloser (.inl (not_lt.mp hle))))
  have hne : e.value ≠ (candidate (p + 1) e.significant).value := fun heq =>
    hmiss (magnitude_eq_of_nearest (heq ▸ he))
  have hcandidate : (candidate (p + 1) e.significant).value =
      (candidate (p + 1) e.significant).digits * 10 ^ (place (p + 1) - e.significant) := by
    rw [Decimal.value, candidate, exponent_rounded, place]
  obtain ⟨k, hk⟩ := (e.on_grid (place (p + 1))).resolve_right
    fun hbelow => (habove.trans_le (hbelow.trans hplace)).false
  calc (10 : ℚ) ^ (place (p + 1) - e.significant) ≤ |e.value - (candidate (p + 1) e.significant).value| :=
        le_abs_sub_of_ne (tenPow_pos _) hk hcandidate hne
    _ ≤ |e.value - Binary64.value (p + 1)| +
          |Binary64.value (p + 1) - (candidate (p + 1) e.significant).value| := abs_sub_le ..
    _ ≤ 2 * (e.value - Binary64.value (p + 1)) := by
        rw [abs_sub_of_le habove.le] at hcloser
        rw [abs_sub_of_ge habove.le]
        linarith
    _ ≤ gap (p + 1) := ((nearest_succ_iff hm).mp he).1.2

/-- Above a lopsided magnitude one digit more is enough. -/
theorem precision_le_succ : precision m ≤ e.significant + 1 := by
  by_cases hback : (candidate m e.significant).magnitude = m
  · exact ((precision_spec h0 hm).2.2 _ e.significant_pos hback).trans (Nat.le_succ _)
  · have hgrid := tenPow_le_of_missed h0 hm he hback
    refine (precision_spec h0 hm).2.2 _ (Nat.succ_pos _) ?_
    obtain ⟨p, rfl⟩ := Nat.exists_eq_add_of_lt h0
    rw [Nat.zero_add] at *
    refine magnitude_candidate_of_lt hm ?_
    have hten : (10 : ℚ) ^ (place (p + 1) - (e.significant + 1 : Nat)) * 10 =
        10 ^ (place (p + 1) - e.significant) := by
      rw [← zpow_add_one₀ (by norm_num)]
      congr 1
      omega
    linarith [gap_pos p, gap_succ_le p]

end

end Decimal

/-- No digits are found for zero. -/
theorem Decimal.value_candidate_zero (count : Nat) : (candidate 0 count).value = 0 := by
  have h := rounded_nearest (Binary64.units 0) (one_shiftLeft_pos 1074) count 0
  rwa [Binary64.units_of_lt (by decide), Nat.cast_zero, zero_div, zero_mul, sub_zero, sub_zero, abs_zero,
    abs_nonpos_iff] at h

/-! ## The text of a number -/

namespace Numeral

theorem double?_of_decimal? {s : Bytes} {negative : Bool} {d : Decimal}
    (h : decimal? s = some (negative, d)) : double? s = some (.ofMagnitude negative d.magnitude) := by
  rw [double?, h, Option.map_some]

theorem decimal?_signed {b : UInt8} (hb : b ≠ Ascii.minus) (rest : Bytes) (negative : Bool) :
    decimal? (if negative then Ascii.minus :: b :: rest else b :: rest) =
      (unsignedDecimal? (b :: rest)).map (negative, ·) := by
  cases negative with
  | false => rw [if_neg (by decide), decimal?, if_neg hb]
  | true => rw [if_pos rfl, decimal?, if_pos rfl]

end Numeral

theorem Decimal.exists_write_eq_cons (d : Decimal) : ∃ b rest, d.write = b :: rest ∧ b ≠ Ascii.minus := by
  rcases d.write_cases with ⟨-, _, _, hsplit, -⟩ | ⟨-, s, power, _, _, _, hwrite, hsplit, -, -⟩
  · obtain ⟨b, rest, hwrite, hb⟩ := (Grammar.isUnsigned_of_split? hsplit).exists_cons
    exact ⟨b, rest, hwrite, ne_minus_of_inNumber hb⟩
  · obtain ⟨b, rest, hs, hb⟩ := (Grammar.isUnsigned_of_split? hsplit).exists_cons
    exact ⟨b, rest ++ Numeral.powerMark :: power, hwrite.trans (congrArg (· ++ _) hs),
      ne_minus_of_inNumber hb⟩

namespace Binary64

open Numeral

theorem magnitude_pos {x : Binary64} (h : ¬x.isZero) : 0 < x.magnitude :=
  Nat.pos_of_ne_zero (by simpa [isZero] using h)

theorem infinite_lt : infinite < 2 ^ 63 := by decide

/-- A pattern is its sign and its magnitude. -/
theorem ofMagnitude_magnitude (x : Binary64) : ofMagnitude x.isNegative x.magnitude = x := by
  have hlt := x.bits.toNat_lt
  obtain ⟨bits⟩ := x
  simp only [ofMagnitude, isNegative, magnitude, mk.injEq, Nat.one_shiftLeft, decide_eq_true_eq] at *
  rw [← UInt64.toNat_inj, UInt64.toNat_ofNat']
  split <;> omega

theorem magnitude_ofMagnitude {m : Nat} (h : m ≤ infinite) (negative : Bool) :
    (ofMagnitude negative m).magnitude = m := by
  have hlt := infinite_lt
  simp only [ofMagnitude, magnitude, Nat.one_shiftLeft, UInt64.toNat_ofNat']
  split <;> omega

theorem write_of_isZero {x : Binary64} (h : x.isZero) : x.write = [Ascii.zero] := by
  have hnan : ¬x.isNaN := by
    rw [isZero, beq_iff_eq] at h
    rw [isNaN, h]
    decide
  rw [write, if_neg hnan, if_pos h]

theorem not_isNaN {x : Binary64} (h : x.isFinite) : ¬x.isNaN := by
  rw [isFinite, decide_eq_true_eq] at h
  rw [isNaN, decide_eq_true_eq]
  omega

section

variable {x : Binary64} (hfinite : x.isFinite) (hzero : ¬x.isZero)
include hfinite hzero

theorem write_of_isFinite :
    x.write = if x.isNegative then Ascii.minus :: (Decimal.ofMagnitude x.magnitude).write
      else (Decimal.ofMagnitude x.magnitude).write := by
  rw [write, if_neg (not_isNaN hfinite), if_neg hzero, if_pos hfinite]

theorem exists_decimal?_write :
    ∃ d, decimal? x.write = some (x.isNegative, d) ∧ d.value = (Decimal.ofMagnitude x.magnitude).value := by
  obtain ⟨b, rest, hwrite, hb⟩ := (Decimal.ofMagnitude x.magnitude).exists_write_eq_cons
  obtain ⟨d, hd, hvalue⟩ := (Decimal.ofMagnitude x.magnitude).unsignedDecimal?_write
  refine ⟨d, ?_, hvalue⟩
  rw [write_of_isFinite hfinite hzero, hwrite, decimal?_signed hb, ← hwrite, hd, Option.map_some]

end

/-- The text of a finite double is a numeral. It denotes the decimal that was found for the double, which the
double is nearest to, so that it reads back as the same double; only zero loses its sign. -/
theorem write_reads_back {x : Binary64} (hfinite : x.isFinite) :
    ∃ d, decimal? x.write = some (x.isNegative && !x.isZero, d) ∧
      d.value = (Decimal.candidate x.magnitude (Decimal.precision x.magnitude)).value ∧
      Nearest d.value x.magnitude ∧ double? x.write = some (if x.isZero then ⟨0⟩ else x) := by
  by_cases hzero : x.isZero
  · have hmagnitude : x.magnitude = 0 := eq_of_beq hzero
    have hdecimal : decimal? [Ascii.zero] = some (false, ⟨0, 0⟩) := rfl
    have hvalue : (Decimal.mk 0 0).value = 0 := by rw [Decimal.value, Nat.cast_zero, zero_mul]
    have hnearest : Nearest (Decimal.mk 0 0).value 0 := by
      rw [hvalue, ← value_zero]
      exact nearest_value (Nat.zero_le _)
    rw [write_of_isZero hzero, hmagnitude, hzero, Bool.not_true, Bool.and_false,
      double?_of_decimal? hdecimal, Decimal.magnitude_eq_of_nearest hnearest, if_pos rfl]
    exact ⟨_, hdecimal, hvalue.trans (Decimal.value_candidate_zero _).symm, hnearest, rfl⟩
  · obtain ⟨d, hdecimal, hvalue⟩ := exists_decimal?_write hfinite hzero
    have hnearest := Decimal.nearest_ofMagnitude (magnitude_pos hzero) (of_decide_eq_true hfinite)
    rw [← hvalue] at hnearest
    refine ⟨d, ?_, hvalue.trans (Decimal.value_ofMagnitude _), hnearest, ?_⟩
    · rw [hdecimal, Bool.eq_false_iff.mpr hzero, Bool.not_false, Bool.and_true]
    · rw [double?_of_decimal? hdecimal, Decimal.magnitude_eq_of_nearest hnearest,
        ofMagnitude_magnitude, if_neg hzero]

/-- The smallest number below zero. -/
theorem write_reads_back_of_smallest :
    (⟨0x8000000000000001⟩ : Binary64).isFinite ∧
      ∃ d, decimal? (write ⟨0x8000000000000001⟩) = some (true, d) ∧
        double? (write ⟨0x8000000000000001⟩) = some ⟨0x8000000000000001⟩ := by
  have hfinite : (⟨0x8000000000000001⟩ : Binary64).isFinite := by decide
  obtain ⟨d, hdecimal, -, -, hback⟩ := write_reads_back hfinite
  exact ⟨hfinite, d, hdecimal, hback⟩

end Binary64

/-! ## Shorter texts -/

/-- With how many significant digits a numeral is written, zeros in front and at the end not counted. -/
def Numeral.significant? (t : Bytes) : Option Nat := (decimal? t).map (·.2.significant)

namespace Binary64

open Numeral

/-- A numeral that reads back as a double, with fewer significant digits than the text of the double. -/
def IsShorter (t : Bytes) (x : Binary64) : Prop :=
  double? t = some x ∧ ∃ k n, significant? t = some k ∧ significant? x.write = some n ∧ k < n

/-- A numeral that reads back as a double denotes a decimal to which the double is nearest. -/
theorem nearest_of_double? {t : Bytes} {x : Binary64} {negative : Bool} {d : Decimal}
    (hdecimal : decimal? t = some (negative, d)) (h : double? t = some x) : Nearest d.value x.magnitude := by
  have hnearest := d.nearest_magnitude
  rw [double?_of_decimal? hdecimal, Option.some_inj] at h
  rwa [← h, magnitude_ofMagnitude hnearest.le]

/-- The text of a double has digits, and a numeral that reads back as the double has no fewer, unless the
double is a power of two with a larger gap above it, and the numeral lies in this gap; it has one digit less
then. -/
theorem lopsided_of_isShorter {x : Binary64} (hfinite : x.isFinite) (hzero : ¬x.isZero) :
    ∃ n, significant? x.write = some n ∧ ∀ t, IsShorter t x →
      Lopsided x.magnitude ∧ significant? t = some (n - 1) ∧
        ∃ negative d, decimal? t = some (negative, d) ∧ value x.magnitude < d.value := by
  have hpos := magnitude_pos hzero
  have hlt : x.magnitude < infinite := of_decide_eq_true hfinite
  obtain ⟨d, hdecimal, hvalue⟩ := exists_decimal?_write hfinite hzero
  have hprinted : significant? x.write = some d.significant := by
    rw [significant?, hdecimal, Option.map_some]
  have hprecision := Decimal.significant_le_precision hpos hlt hvalue
  refine ⟨_, hprinted, ?_⟩
  rintro t ⟨hback, k, n, hk, hn, hkn⟩
  obtain ⟨⟨negative, e⟩, he, hek⟩ := Option.map_eq_some_iff.mp hk
  obtain rfl : e.significant = k := hek
  obtain rfl : d.significant = n := Option.some_inj.mp (hprinted.symm.trans hn)
  have hnearest := nearest_of_double? he hback
  have hsucc := Decimal.precision_le_succ hpos hlt hnearest
  -- On the side of the narrow gap, and between equal gaps, no precision was passed over.
  have hside : ¬(e.value ≤ value x.magnitude ∨ ¬Lopsided x.magnitude) := fun hside => by
    have hle := Decimal.precision_le_of_nearest hpos hlt hnearest hside
    omega
  rw [not_or, not_le, not_not] at hside
  refine ⟨hside.2, ?_, negative, e, he, hside.1⟩
  rw [hk]
  congr 1
  omega

/-- What is shorter than the text of `2 ^ -44` lies above this number. -/
theorem lopsided_of_isShorter_of_power :
    (⟨0x3d30000000000000⟩ : Binary64).isFinite ∧ ¬(⟨0x3d30000000000000⟩ : Binary64).isZero ∧
      ∃ n, significant? (write ⟨0x3d30000000000000⟩) = some n ∧ ∀ t, IsShorter t ⟨0x3d30000000000000⟩ →
        Lopsided (magnitude ⟨0x3d30000000000000⟩) ∧ significant? t = some (n - 1) ∧
          ∃ negative d, decimal? t = some (negative, d) ∧ value (magnitude ⟨0x3d30000000000000⟩) < d.value :=
  have hfinite : (⟨0x3d30000000000000⟩ : Binary64).isFinite := by decide
  have hzero : ¬(⟨0x3d30000000000000⟩ : Binary64).isZero := by decide
  ⟨hfinite, hzero, lopsided_of_isShorter hfinite hzero⟩

/-- The double `2 ^ -44` is printed as `5.6843418860808015e-14`, but sixteen digits are enough for it. -/
theorem not_shortest_of_power :
    ¬∀ (x : Binary64) (t : Bytes), x.isFinite → ¬x.isZero → ¬IsShorter t x := by
  intro h
  refine h ⟨0x3d30000000000000⟩ (Bytes.ofString "5.684341886080802e-14") (by decide) (by decide)
    ⟨?_, 16, 17, ?_, ?_, by decide⟩
  · decide +kernel
  · decide +kernel
  · decide +kernel

end Binary64

end Stencil
