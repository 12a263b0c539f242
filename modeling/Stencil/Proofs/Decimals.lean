import Mathlib.Algebra.Order.Field.Power
import Stencil.Number.Decimal
import Stencil.Proofs.Rounding

/-!
# Decimals with few digits

A decimal stands for a rational number (`Decimal.value`), and the magnitude that it is read as is the
nearest to this number (`nearest_magnitude`). The decimal that a quotient is rounded to is the nearest of
all that have no more digits, wherever these have their point (`rounded_closest`): none of them lies
between two neighbours of its grid (`exists_grid`).
-/

namespace Stencil.Decimal

open Binary64

/-! ## Values of decimals -/

/-- The number that a decimal stands for. -/
def value (d : Decimal) : ℚ := d.digits * 10 ^ d.exponent

theorem tenPow_pos (e : ℤ) : (0 : ℚ) < 10 ^ e := zpow_pos (by norm_num) e

theorem tenPow_add (a b : ℤ) : (10 : ℚ) ^ (a + b) = 10 ^ a * 10 ^ b := zpow_add₀ (by norm_num) a b

theorem tenPow_mono {a b : ℤ} (h : a ≤ b) : (10 : ℚ) ^ a ≤ 10 ^ b := zpow_le_zpow_right₀ (by norm_num) h

theorem tenPow_lt_iff {a b : ℤ} : (10 : ℚ) ^ a < 10 ^ b ↔ a < b := zpow_lt_zpow_iff_right₀ (by norm_num)

theorem cast_tenPow (k : Nat) : ((10 ^ k : Nat) : ℚ) = 10 ^ (k : ℤ) := by
  rw [zpow_natCast, Nat.cast_pow, Nat.cast_ofNat]

theorem cast_tenPow_toNat {e : ℤ} (he : 0 ≤ e) : ((Nat.pow 10 e.toNat : Nat) : ℚ) = 10 ^ e := by
  rw [Nat.pow_eq, cast_tenPow, Int.toNat_of_nonneg he]

theorem cast_tenPow_pred {k : Nat} (hk : 0 < k) : ((10 ^ (k - 1) : Nat) : ℚ) = 10 ^ (k - 1 : ℤ) := by
  rw [cast_tenPow, Nat.cast_sub hk, Nat.cast_one]

/-- A decimal is read as the magnitude that is nearest to its value. -/
theorem nearest_magnitude (d : Decimal) : Nearest d.value d.magnitude := by
  rw [magnitude, value]
  split
  · rename_i he
    have h := nearest_nearestMagnitude (d.digits * Nat.pow 10 d.exponent.toNat) Nat.one_pos
    rwa [Nat.cast_one, div_one, Nat.cast_mul, cast_tenPow_toNat he] at h
  · rename_i he
    have h := nearest_nearestMagnitude d.digits (Nat.pow_pos (n := (-d.exponent).toNat) (Nat.succ_pos 9))
    rwa [← Nat.pow_eq, cast_tenPow_toNat (by omega), zpow_neg, div_inv_eq_mul] at h

/-! ## Counting digits -/

theorem digitCount_pos (n : Nat) : 0 < digitCount n := Nat.length_toDigits_pos

theorem digitCount_le_iff {n k : Nat} (hk : 0 < k) : digitCount n ≤ k ↔ n < 10 ^ k :=
  Nat.length_toDigits_le_iff (by decide) hk

theorem lt_pow_digitCount (n : Nat) : n < 10 ^ digitCount n :=
  (digitCount_le_iff (digitCount_pos n)).mp le_rfl

theorem pow_digitCount_le {n : Nat} (hn : 0 < n) : 10 ^ (digitCount n - 1) ≤ n := by
  by_contra h
  rcases Nat.eq_zero_or_pos (digitCount n - 1) with hone | hmore
  · rw [hone] at h
    omega
  · have hle := (digitCount_le_iff hmore).mpr (Nat.lt_of_not_le h)
    omega

theorem quotient_between {n d : Nat} (hd : 0 < d) (h : d ≤ n) :
    10 ^ (digitCount (n / d) - 1) * d ≤ n ∧ n < 10 ^ digitCount (n / d) * d := by
  constructor
  · calc 10 ^ (digitCount (n / d) - 1) * d ≤ n / d * d :=
          Nat.mul_le_mul_right d (pow_digitCount_le (Nat.div_pos h hd))
      _ ≤ n := Nat.div_mul_le_self n d
  · exact (Nat.div_lt_iff_lt_mul hd).mp (lt_pow_digitCount (n / d))

/-- The leading digit of a quotient stands in the place that its order says. -/
theorem order_spec {n d : Nat} (hn : 0 < n) (hd : 0 < d) :
    (10 : ℚ) ^ (order n d - 1) ≤ n / d ∧ (n : ℚ) / d < 10 ^ order n d := by
  have hn' : (0 : ℚ) < n := by exact_mod_cast hn
  have hd' : (0 : ℚ) < d := by exact_mod_cast hd
  rw [order]
  split
  · rename_i h
    obtain ⟨hlow, hhigh⟩ := quotient_between hd h
    rw [le_div_iff₀ hd', div_lt_iff₀ hd', ← cast_tenPow_pred (digitCount_pos _), ← cast_tenPow]
    exact ⟨by exact_mod_cast hlow, by exact_mod_cast hhigh⟩
  · rename_i h
    obtain ⟨hlow, hhigh⟩ := quotient_between hn (show n ≤ d - 1 by omega)
    have hlow' : 10 ^ (digitCount ((d - 1) / n) - 1) * n < d := by omega
    have hhigh' : d ≤ 10 ^ digitCount ((d - 1) / n) * n := by omega
    have hone (c : ℤ) : (1 - c : ℤ) = -(c - 1) := by ring
    have hzero (c : ℤ) : (1 - c - 1 : ℤ) = -c := by ring
    have hpos (c : Nat) : (0 : ℚ) < (10 ^ c : Nat) := by positivity
    rw [hzero, hone, zpow_neg, zpow_neg, ← cast_tenPow_pred (digitCount_pos _), ← cast_tenPow,
      le_div_iff₀ hd', div_lt_iff₀ hd', inv_mul_le_iff₀ (hpos _), lt_inv_mul_iff₀ (hpos _)]
    exact ⟨by exact_mod_cast hhigh', by exact_mod_cast hlow'⟩

/-! ## Rounding to a number of digits -/

/-- To round a quotient to some digits is to round it, moved by powers of ten, to a whole number. -/
theorem exists_rounded_eq (n : Nat) {d : Nat} (hd : 0 < d) (count : Nat) :
    ∃ n' d', 0 < d' ∧ rounded n d count = ⟨roundDiv n' d', order n d - count⟩ ∧
      (n : ℚ) / d = n' / d' * 10 ^ (order n d - count) := by
  have hten (k : Nat) : 0 < Nat.pow 10 k := Nat.pow_pos (Nat.succ_pos 9)
  have hd' : (d : ℚ) ≠ 0 := by exact_mod_cast hd.ne'
  rw [rounded]
  generalize order n d - count = e
  split
  · rename_i he
    refine ⟨n, d * Nat.pow 10 e.toNat, Nat.mul_pos hd (hten _), rfl, ?_⟩
    rw [Nat.cast_mul, cast_tenPow_toNat he]
    have hne := (tenPow_pos e).ne'
    field_simp
  · rename_i he
    refine ⟨n * Nat.pow 10 (-e).toNat, d, hd, rfl, ?_⟩
    rw [Nat.cast_mul, cast_tenPow_toNat (by omega), zpow_neg]
    have hne := (tenPow_pos e).ne'
    field_simp

theorem exponent_rounded (n d count : Nat) : (rounded n d count).exponent = order n d - count := by
  rw [rounded]
  split <;> rfl

section

variable (n : Nat) {d : Nat} (hd : 0 < d) (count : Nat)
include hd

/-- No decimal on the same grid is nearer. -/
theorem rounded_nearest (k : Nat) :
    |(rounded n d count).value - n / d| ≤ |(k : ℚ) * 10 ^ (order n d - count) - n / d| := by
  obtain ⟨n', d', hd', hrounded, hquotient⟩ := exists_rounded_eq n hd count
  rw [hrounded, value, hquotient, ← sub_mul, ← sub_mul, abs_mul, abs_mul]
  exact mul_le_mul_of_nonneg_right (roundDiv_nearest n' hd' k) (abs_nonneg _)

theorem abs_rounded_sub_le :
    2 * |(rounded n d count).value - n / d| ≤ 10 ^ (order n d - count) := by
  obtain ⟨n', d', hd', hrounded, hquotient⟩ := exists_rounded_eq n hd count
  rw [hrounded, value, hquotient, ← sub_mul, abs_mul, abs_of_pos (tenPow_pos _), ← mul_assoc]
  exact mul_le_of_le_one_left (tenPow_pos _).le (abs_roundDiv_sub_le n' hd')

/-- Rounding up can give a power of ten, which has one digit more. -/
theorem digits_rounded_le (hn : 0 < n) : (rounded n d count).digits ≤ 10 ^ count := by
  obtain ⟨n', d', hd', hrounded, hquotient⟩ := exists_rounded_eq n hd count
  have horder := (order_spec hn hd).2
  rw [hquotient] at horder
  have hten : (10 : ℚ) ^ order n d = 10 ^ (count : ℤ) * 10 ^ (order n d - count) := by
    rw [← tenPow_add, add_sub_cancel]
  rw [hten, mul_lt_mul_iff_left₀ (tenPow_pos _), ← cast_tenPow] at horder
  rw [hrounded]
  have hfloor : n' / d' < 10 ^ count := by
    rw [div_lt_iff₀ (by exact_mod_cast hd')] at horder
    exact (Nat.div_lt_iff_lt_mul hd').mpr (by exact_mod_cast horder)
  show roundDiv n' d' ≤ 10 ^ count
  unfold roundDiv
  split <;> omega

end

/-! ## Significant digits -/

/-- The same number has its digits elsewhere: what is left of a decimal without trailing zeros. -/
theorem value_normalize (d : Decimal) : d.normalize.value = d.value := by
  induction d using normalize.induct with
  | case1 d h ih =>
    rw [normalize, if_pos h, ih, value, value]
    have hdigits : (d.digits : ℚ) = (d.digits / 10 : Nat) * 10 := by
      exact_mod_cast (Nat.div_mul_cancel (Nat.dvd_of_mod_eq_zero h.2)).symm
    rw [hdigits, tenPow_add, zpow_one]
    ring
  | case2 d h => rw [normalize, if_neg h]

theorem digits_normalize_mod {d : Decimal} (hd : d.digits ≠ 0) : d.normalize.digits % 10 ≠ 0 := by
  induction d using normalize.induct with
  | case1 d h ih =>
    rw [normalize, if_pos h]
    exact ih (show d.digits / 10 ≠ 0 by omega)
  | case2 d h =>
    rw [normalize, if_neg h]
    exact fun hmod => h ⟨hd, hmod⟩

theorem digits_normalize_le (d : Decimal) : d.normalize.digits ≤ d.digits := by
  induction d using normalize.induct with
  | case1 d h ih =>
    rw [normalize, if_pos h]
    exact ih.trans (Nat.div_le_self d.digits 10)
  | case2 d h => rw [normalize, if_neg h]

theorem exponent_le_of_value_eq {d d' : Decimal} (hd : d.digits % 10 ≠ 0) (h : d.value = d'.value) :
    d'.exponent ≤ d.exponent := by
  by_contra hlt
  obtain ⟨k, hk⟩ := Int.eq_ofNat_of_zero_le (show 0 ≤ d'.exponent - d.exponent - 1 by omega)
  have hexponent : d'.exponent = d.exponent + ((k + 1 : Nat) : ℤ) := by
    push_cast
    omega
  rw [value, value, hexponent, tenPow_add, ← cast_tenPow, mul_comm ((10 : ℚ) ^ d.exponent), ← mul_assoc,
    mul_left_inj' (tenPow_pos _).ne'] at h
  have hdigits : d.digits = d'.digits * 10 ^ (k + 1) := by exact_mod_cast h
  rw [Nat.pow_succ, ← Nat.mul_assoc] at hdigits
  omega

/-- Decimals of the same value without trailing zeros are the same. -/
theorem eq_of_value_eq {d d' : Decimal} (hd : d.digits % 10 ≠ 0) (hd' : d'.digits % 10 ≠ 0)
    (h : d.value = d'.value) : d = d' := by
  have hexponent : d.exponent = d'.exponent :=
    le_antisymm (exponent_le_of_value_eq hd' h.symm) (exponent_le_of_value_eq hd h)
  rw [value, value, hexponent, mul_left_inj' (tenPow_pos _).ne'] at h
  have hdigits : d.digits = d'.digits := by exact_mod_cast h
  cases d
  cases d'
  simp_all

theorem normalize_eq_of_value_eq {d d' : Decimal} (hd : d.digits ≠ 0) (hd' : d'.digits ≠ 0)
    (h : d.value = d'.value) : d.normalize = d'.normalize := by
  refine eq_of_value_eq (digits_normalize_mod hd) (digits_normalize_mod hd') ?_
  rw [value_normalize, value_normalize, h]

/-- How many digits a decimal has, zeros in front and at the end not counted. -/
def significant (d : Decimal) : Nat := digitCount d.normalize.digits

theorem significant_pos (d : Decimal) : 0 < d.significant := digitCount_pos _

theorem significant_le_of_digits_le {d : Decimal} {count : Nat} (hcount : 0 < count) (hd : d.digits ≠ 0)
    (h : d.digits ≤ 10 ^ count) : d.significant ≤ count := by
  refine (digitCount_le_iff hcount).mpr (lt_of_le_of_ne ((digits_normalize_le d).trans h) fun heq => ?_)
  have hmod := digits_normalize_mod hd
  obtain ⟨k, rfl⟩ := Nat.exists_eq_add_of_lt hcount
  rw [heq, Nat.zero_add, Nat.pow_succ] at hmod
  omega

/-- Two numbers of a grid are a step apart. -/
theorem le_abs_sub_of_ne {step a b : ℚ} {j k : Nat} (hstep : 0 < step) (ha : a = j * step)
    (hb : b = k * step) (hne : a ≠ b) : step ≤ |a - b| := by
  have hjk : (j : ℤ) - k ≠ 0 := by
    intro h
    obtain rfl : j = k := by omega
    exact hne (ha.trans hb.symm)
  rw [ha, hb, ← sub_mul, abs_mul, abs_of_pos hstep]
  exact le_mul_of_one_le_left hstep.le (by exact_mod_cast Int.one_le_abs hjk)

/-- A decimal lies on the grid that its number of digits makes behind some place, or does not reach that
place. -/
theorem on_grid (d : Decimal) (order : ℤ) :
    (∃ k : Nat, d.value = k * 10 ^ (order - d.significant)) ∨ d.value ≤ 10 ^ (order - 1) := by
  rw [← value_normalize, significant]
  generalize d.normalize = d'
  rw [value]
  rcases le_or_gt (order - digitCount d'.digits) d'.exponent with h | h
  · obtain ⟨k, hk⟩ := Int.eq_ofNat_of_zero_le (sub_nonneg.mpr h)
    have hexponent : d'.exponent = k + (order - digitCount d'.digits) := by omega
    refine .inl ⟨d'.digits * 10 ^ k, ?_⟩
    rw [hexponent, tenPow_add, Nat.cast_mul, cast_tenPow, mul_assoc]
  · have hdigits : (d'.digits : ℚ) ≤ 10 ^ (digitCount d'.digits : ℤ) := by
      rw [← cast_tenPow]
      exact_mod_cast (lt_pow_digitCount _).le
    refine .inr ?_
    calc (d'.digits : ℚ) * 10 ^ d'.exponent ≤ 10 ^ (digitCount d'.digits : ℤ) * 10 ^ d'.exponent :=
          mul_le_mul_of_nonneg_right hdigits (tenPow_pos _).le
      _ = 10 ^ (digitCount d'.digits + d'.exponent) := (tenPow_add _ _).symm
      _ ≤ 10 ^ (order - 1) := tenPow_mono (by omega)

/-- A number whose leading digit is in front of a grid is no farther from this grid than from any decimal
with as many digits. -/
theorem exists_grid {x : ℚ} {order : ℤ} (d : Decimal) (hx : 10 ^ (order - 1) ≤ x) :
    ∃ k : Nat, |(k : ℚ) * 10 ^ (order - d.significant) - x| ≤ |d.value - x| := by
  rcases d.on_grid order with ⟨k, hk⟩ | hbelow
  · exact ⟨k, (congrArg (|· - x|) hk.symm).le⟩
  · -- The first number of the grid lies between the two.
    have hfirst : ((10 ^ (d.significant - 1) : Nat) : ℚ) * 10 ^ (order - d.significant) =
        10 ^ (order - 1) := by
      rw [cast_tenPow_pred d.significant_pos, ← tenPow_add, sub_add_sub_cancel']
    refine ⟨10 ^ (d.significant - 1), ?_⟩
    rw [hfirst, abs_sub_of_le hx, abs_sub_of_le (hbelow.trans hx)]
    linarith

/-- What a quotient is rounded to is the nearest of all decimals with as many digits. -/
theorem rounded_closest {n d : Nat} (hn : 0 < n) (hd : 0 < d) (e : Decimal) :
    |(rounded n d e.significant).value - n / d| ≤ |e.value - n / d| := by
  obtain ⟨k, hk⟩ := exists_grid e (order_spec hn hd).1
  exact (rounded_nearest n hd e.significant k).trans hk

end Stencil.Decimal
