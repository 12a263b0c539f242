import Mathlib.Algebra.Order.AbsoluteValue.Basic
import Mathlib.Algebra.Order.Field.Rat
import Mathlib.Order.Monotone.Basic
import Mathlib.Tactic.FieldSimp
import Mathlib.Tactic.Linarith
import Mathlib.Tactic.Positivity
import Mathlib.Tactic.Ring
import Stencil.Number.Binary64

/-!
# Rounding to the nearest double

What it means that a magnitude is the nearest to a rational number (`Binary64.Nearest`), said without
regard to how it is found. There is one such magnitude for each number (`Nearest.unique`), larger numbers
have larger ones (`Nearest.mono`), and `nearestMagnitude` finds it (`nearest_nearestMagnitude`): behind a
step of the exponent the magnitudes count the multiples of a power of two (`value_significand`), and among
these multiples the quotient is rounded to the nearest whole number (`roundDiv_cases`).

The last part says which numbers are nearest to a magnitude: those between the middles of the two gaps next
to it (`nearest_succ_iff`).
-/

namespace Stencil.Binary64

/-! ## Values of magnitudes -/

/-- The value of a magnitude. The infinite one counts as `2 ^ 1024`, with which the finite values would
go on. -/
def value (m : Nat) : ℚ := units m / 2 ^ 1074

theorem units_of_lt {m : Nat} (h : m < 2 ^ 52) : units m = m := by
  rw [units, Nat.one_shiftLeft, if_pos h]

theorem units_of_normal (s : Nat) {f : Nat} (hf : f < 2 ^ 52) :
    units ((s + 1) * 2 ^ 52 + f) = (2 ^ 52 + f) * 2 ^ s := by
  have hm : ¬(s + 1) * 2 ^ 52 + f < 2 ^ 52 := by omega
  have hdiv : ((s + 1) * 2 ^ 52 + f) / 2 ^ 52 - 1 = s := by omega
  have hmod : ((s + 1) * 2 ^ 52 + f) % 2 ^ 52 = f := by omega
  rw [units, Nat.one_shiftLeft, if_neg hm, hdiv, hmod, Nat.shiftLeft_eq]

/-- A significand that goes with a step of the exponent. -/
structure Significand (s r : Nat) : Prop where
  lt : r < 2 ^ 53
  normal : s = 0 ∨ 2 ^ 52 ≤ r

theorem exists_significand (m : Nat) :
    ∃ r, Significand (m / 2 ^ 52 - 1) r ∧ m = (m / 2 ^ 52 - 1) * 2 ^ 52 + r := by
  by_cases h : m < 2 ^ 52
  · exact ⟨m, ⟨by omega, .inl (by omega)⟩, by omega⟩
  · exact ⟨2 ^ 52 + m % 2 ^ 52, ⟨by omega, .inr (by omega)⟩, by omega⟩

/-- A significand may carry into the exponent: `2 ^ 53` at one step is `2 ^ 52` at the next. -/
theorem units_of_le {s r : Nat} (hr : r ≤ 2 ^ 53) (hs : s = 0 ∨ 2 ^ 52 ≤ r) :
    units (s * 2 ^ 52 + r) = r * 2 ^ s := by
  rcases Nat.lt_or_ge r (2 ^ 52) with hsmall | hlarge
  · obtain rfl : s = 0 := by omega
    rw [Nat.zero_mul, Nat.zero_add, Nat.pow_zero, Nat.mul_one, units_of_lt hsmall]
  · rcases Nat.eq_or_lt_of_le hr with rfl | hlt
    · have hm : s * 2 ^ 52 + 2 ^ 53 = (s + 1 + 1) * 2 ^ 52 + 0 := by omega
      rw [hm, units_of_normal (s + 1) (by decide), Nat.pow_succ 2 s]
      ring
    · obtain ⟨f, rfl⟩ := Nat.exists_eq_add_of_le hlarge
      have hm : s * 2 ^ 52 + (2 ^ 52 + f) = (s + 1) * 2 ^ 52 + f := by omega
      rw [hm, units_of_normal s (by omega)]

/-- The distance of two magnitudes next to each other at a step of the exponent. -/
def spacing (s : Nat) : ℚ := 2 ^ s / 2 ^ 1074

theorem spacing_pos (s : Nat) : 0 < spacing s := by
  unfold spacing
  positivity

theorem value_of_le {s r : Nat} (hr : r ≤ 2 ^ 53) (hs : s = 0 ∨ 2 ^ 52 ≤ r) :
    value (s * 2 ^ 52 + r) = spacing s * r := by
  rw [value, units_of_le hr hs, Nat.cast_mul, Nat.cast_pow, Nat.cast_ofNat, mul_comm (r : ℚ),
    mul_div_right_comm, spacing]

section

variable {s r : Nat} (h : Significand s r)
include h

theorem value_significand : value (s * 2 ^ 52 + r) = spacing s * r := value_of_le h.lt.le h.normal

theorem value_significand_succ : value (s * 2 ^ 52 + r + 1) = spacing s * (r + 1) := by
  rw [Nat.add_assoc, value_of_le h.lt (h.normal.imp_right Nat.le_succ_of_le), Nat.cast_succ]

end

/-- The distance from a magnitude to the next. -/
def gap (m : Nat) : ℚ := spacing (m / 2 ^ 52 - 1)

theorem value_succ (m : Nat) : value (m + 1) = value m + gap m := by
  obtain ⟨r, h, hm⟩ := exists_significand m
  have hvalue := value_significand h
  have hnext := value_significand_succ h
  rw [← hm] at hvalue hnext
  rw [hvalue, hnext, gap]
  ring

theorem gap_pos (m : Nat) : 0 < gap m := spacing_pos _

theorem value_strictMono : StrictMono value := by
  refine strictMono_nat_of_lt_succ fun m => ?_
  rw [value_succ]
  exact lt_add_of_pos_right _ (gap_pos m)

theorem spacing_mono : Monotone spacing := by
  intro s s' h
  exact div_le_div_of_nonneg_right (pow_le_pow_right₀ (by norm_num) h) (by positivity)

theorem spacing_succ (s : Nat) : spacing (s + 1) = 2 * spacing s := by
  rw [spacing, spacing, pow_succ', mul_div_assoc]

theorem gap_mono : Monotone gap := fun _ _ h =>
  spacing_mono (Nat.sub_le_sub_right (Nat.div_le_div_right h) 1)

theorem gap_succ_le (m : Nat) : gap (m + 1) ≤ 2 * gap m := by
  have h : gap (m + 1) ≤ spacing (m / 2 ^ 52 - 1 + 1) := spacing_mono (by omega)
  rwa [spacing_succ] at h

/-- A power of two that is not among the smallest numbers: the gap below it is half of the gap above. -/
def Lopsided (m : Nat) : Prop := m % 2 ^ 52 = 0 ∧ 2 ^ 52 < m

theorem gap_eq_of_not_lopsided {p : Nat} (h : ¬Lopsided (p + 1)) : gap p = gap (p + 1) := by
  unfold Lopsided at h
  unfold gap
  congr 1
  omega

/-- A magnitude is less than `2 ^ 53` gaps away from zero. -/
theorem value_succ_le (m : Nat) : value (m + 1) ≤ 2 ^ 53 * gap m := by
  obtain ⟨r, h, hm⟩ := exists_significand m
  have hnext := value_significand_succ h
  have hr : (r : ℚ) + 1 ≤ 2 ^ 53 := by exact_mod_cast h.lt
  rw [← hm] at hnext
  rw [hnext, gap, mul_comm]
  exact mul_le_mul_of_nonneg_right hr (spacing_pos _).le

theorem value_zero : value 0 = 0 := by
  rw [value, units_of_lt (by decide), Nat.cast_zero, zero_div]

/-! ## The nearest magnitude -/

/-- The magnitude is the one nearest to a number, and even if another one is as near. -/
structure Nearest (q : ℚ) (m : Nat) : Prop where
  le : m ≤ infinite
  nearest : ∀ k ≤ infinite, |value m - q| ≤ |value k - q|
  even : ∀ k ≤ infinite, k ≠ m → |value k - q| = |value m - q| → m % 2 = 0

theorem abs_sub_of_le {a q : ℚ} (h : a ≤ q) : |a - q| = q - a := by
  rw [abs_of_nonpos (sub_nonpos.mpr h), neg_sub]

theorem abs_sub_of_ge {a q : ℚ} (h : q ≤ a) : |a - q| = a - q := abs_of_nonneg (sub_nonneg.mpr h)

/-- Every other magnitude is farther from a number than one of the two around it. -/
theorem min_lt_of_between {q : ℚ} {a k : Nat} (hlow : value a ≤ q) (hhigh : q ≤ value (a + 1)) (hk : k ≠ a)
    (hk' : k ≠ a + 1) : min |value a - q| |value (a + 1) - q| < |value k - q| := by
  rcases Nat.lt_or_gt_of_ne hk with h | h
  · have hvalue := value_strictMono h
    rw [abs_sub_of_le hlow, abs_sub_of_le (hvalue.le.trans hlow)]
    exact (min_le_left _ _).trans_lt (by linarith)
  · have hvalue := value_strictMono (show a + 1 < k by omega)
    rw [abs_sub_of_ge hhigh, abs_sub_of_ge (hhigh.trans hvalue.le)]
    exact (min_le_right _ _).trans_lt (by linarith)

/-- The nearer one of the two magnitudes around a number is the nearest one. -/
theorem nearest_of_between {q : ℚ} {a m : Nat} (ha : a < infinite) (hlow : value a ≤ q)
    (hhigh : q ≤ value (a + 1))
    (hm : (m = a ∧ |value a - q| ≤ |value (a + 1) - q| ∧
        (|value a - q| = |value (a + 1) - q| → a % 2 = 0)) ∨
      (m = a + 1 ∧ |value (a + 1) - q| ≤ |value a - q| ∧
        (|value a - q| = |value (a + 1) - q| → a % 2 = 1))) :
    Nearest q m := by
  have hcases (k : Nat) : k = a ∨ k = a + 1 ∨
      min |value a - q| |value (a + 1) - q| < |value k - q| := by
    by_cases hk : k = a
    · exact .inl hk
    · by_cases hk' : k = a + 1
      · exact .inr (.inl hk')
      · exact .inr (.inr (min_lt_of_between hlow hhigh hk hk'))
  rcases hm with ⟨rfl, hnear, htie⟩ | ⟨rfl, hnear, htie⟩
  · simp only [min_eq_left hnear] at hcases
    refine ⟨ha.le, fun k _ => ?_, fun k _ hk heq => ?_⟩
    · rcases hcases k with rfl | rfl | h
      · exact le_rfl
      · exact hnear
      · exact h.le
    · rcases hcases k with rfl | rfl | h
      · exact absurd rfl hk
      · exact htie heq.symm
      · exact absurd heq h.ne'
  · simp only [min_eq_right hnear] at hcases
    refine ⟨ha, fun k _ => ?_, fun k _ hk heq => ?_⟩
    · rcases hcases k with rfl | rfl | h
      · exact hnear
      · exact le_rfl
      · exact h.le
    · rcases hcases k with rfl | rfl | h
      · have hodd := htie heq
        omega
      · exact absurd rfl hk
      · exact absurd heq h.ne'

theorem nearest_infinite {q : ℚ} (h : value infinite ≤ q) : Nearest q infinite := by
  refine ⟨le_rfl, fun k hk => ?_, fun k hk hne heq => ?_⟩
  · have hvalue := value_strictMono.monotone hk
    rw [abs_sub_of_le h, abs_sub_of_le (hvalue.trans h)]
    linarith
  · have hvalue := value_strictMono (Nat.lt_of_le_of_ne hk hne)
    rw [abs_sub_of_le h, abs_sub_of_le (hvalue.le.trans h)] at heq
    linarith

/-! ## There is one nearest magnitude -/

section

variable {a b q : ℚ} (h : a < b)
include h

theorem abs_sub_lt_abs_sub_iff : |a - q| < |b - q| ↔ 2 * q < a + b := by
  have hproduct : (b - q) ^ 2 - (a - q) ^ 2 = (b - a) * (a + b - 2 * q) := by ring
  rw [← sq_lt_sq, ← sub_pos, hproduct, mul_pos_iff_of_pos_left (sub_pos.mpr h), sub_pos]

theorem abs_sub_lt_abs_sub_iff' : |b - q| < |a - q| ↔ a + b < 2 * q := by
  have hproduct : (a - q) ^ 2 - (b - q) ^ 2 = (b - a) * (2 * q - (a + b)) := by ring
  rw [← sq_lt_sq, ← sub_pos, hproduct, mul_pos_iff_of_pos_left (sub_pos.mpr h), sub_pos]

theorem abs_sub_le_abs_sub_iff : |a - q| ≤ |b - q| ↔ 2 * q ≤ a + b := by
  rw [← not_lt, abs_sub_lt_abs_sub_iff' h, not_lt]

theorem abs_sub_le_abs_sub_iff' : |b - q| ≤ |a - q| ↔ a + b ≤ 2 * q := by
  rw [← not_lt, abs_sub_lt_abs_sub_iff h, not_lt]

end

/-- Larger numbers have larger nearest magnitudes. -/
theorem Nearest.mono {q q' : ℚ} {m m' : Nat} (h : Nearest q m) (h' : Nearest q' m') (hq : q ≤ q') :
    m ≤ m' := by
  by_contra hlt
  have hvalue := value_strictMono (Nat.lt_of_not_le hlt)
  have hnear := (abs_sub_le_abs_sub_iff' hvalue).mp (h.nearest m' h'.le)
  have hnear' := (abs_sub_le_abs_sub_iff hvalue).mp (h'.nearest m h.le)
  -- Both numbers are the middle of the two magnitudes, so that these are next to each other and even.
  obtain rfl : q = q' := by linarith
  have htie : |value m' - q| = |value m - q| :=
    le_antisymm (h'.nearest m h.le) (h.nearest m' h'.le)
  have heven := h.even m' h'.le (by omega) htie
  have heven' := h'.even m h.le (by omega) htie.symm
  have hbetween := value_strictMono (show m' + 1 < m by omega)
  have hcloser := (abs_sub_le_abs_sub_iff' hbetween).mp (h.nearest (m' + 1) (by have := h.le; omega))
  have hbelow := value_strictMono (Nat.lt_succ_self m')
  linarith

theorem Nearest.unique {q : ℚ} {m m' : Nat} (h : Nearest q m) (h' : Nearest q m') : m = m' :=
  Nat.le_antisymm (h.mono h' le_rfl) (h'.mono h le_rfl)

theorem nearest_value {m : Nat} (h : m ≤ infinite) : Nearest (value m) m := by
  refine ⟨h, fun k _ => ?_, fun k _ hk heq => ?_⟩
  · rw [sub_self, abs_zero]
    exact abs_nonneg _
  · rw [sub_self, abs_zero, abs_eq_zero, sub_eq_zero] at heq
    exact absurd (value_strictMono.injective heq) hk

/-- Only the nearest magnitude can lie between a number and any other magnitude. -/
theorem Nearest.value_lt {q : ℚ} {m k : Nat} (h : Nearest q m) (hk : k < m) : value k < q := by
  have hvalue := value_strictMono hk
  have hnear := (abs_sub_le_abs_sub_iff' hvalue).mp (h.nearest k (hk.le.trans h.le))
  linarith

theorem Nearest.lt_value {q : ℚ} {m k : Nat} (h : Nearest q m) (hm : m < infinite) (hk : m < k) :
    q < value k := by
  have hvalue := value_strictMono (Nat.lt_succ_self m)
  have hnear := (abs_sub_le_abs_sub_iff hvalue).mp (h.nearest (m + 1) hm)
  have hle := value_strictMono.monotone (Nat.succ_le_of_lt hk)
  linarith

/-! ## What is rounded to a magnitude -/

/-- The numbers that are rounded to a magnitude lie less than half of the next gap above it or below it,
or just half of it if the magnitude is even. -/
theorem nearest_succ_iff {q : ℚ} {p : Nat} (hp : p + 1 < infinite) :
    Nearest q (p + 1) ↔
      (2 * (value (p + 1) - q) ≤ gap p ∧ 2 * (q - value (p + 1)) ≤ gap (p + 1)) ∧
      ((p + 1) % 2 = 1 → 2 * (value (p + 1) - q) ≠ gap p ∧ 2 * (q - value (p + 1)) ≠ gap (p + 1)) := by
  have hbelow := value_strictMono (Nat.lt_succ_self p)
  have habove := value_strictMono (Nat.lt_succ_self (p + 1))
  have hgap := value_succ p
  have hgap' := value_succ (p + 1)
  constructor
  · intro h
    have hlow := h.nearest p (by omega)
    have hhigh := h.nearest (p + 2) hp
    refine ⟨⟨?_, ?_⟩, fun hodd => ⟨fun heq => ?_, fun heq => ?_⟩⟩
    · linarith [(abs_sub_le_abs_sub_iff' hbelow).mp hlow]
    · linarith [(abs_sub_le_abs_sub_iff habove).mp hhigh]
    · have htie := le_antisymm ((abs_sub_le_abs_sub_iff hbelow).mpr (by linarith)) hlow
      have heven := h.even p (by omega) (by omega) htie
      omega
    · have htie := le_antisymm ((abs_sub_le_abs_sub_iff' habove).mpr (by linarith)) hhigh
      have heven := h.even (p + 2) hp (by omega) htie
      omega
  · rintro ⟨⟨hlow, hhigh⟩, hodd⟩
    rcases le_total q (value (p + 1)) with hq | hq
    · refine nearest_of_between (a := p) (by omega) (by linarith [gap_pos p]) hq
        (.inr ⟨rfl, (abs_sub_le_abs_sub_iff' hbelow).mpr (by linarith), fun htie => ?_⟩)
      by_contra heven
      have hmiddle := (abs_sub_le_abs_sub_iff hbelow).mp htie.le
      exact (hodd (by omega)).1 (le_antisymm hlow (by linarith))
    · refine nearest_of_between (a := p + 1) hp hq (by linarith [gap_pos (p + 1)])
        (.inl ⟨rfl, (abs_sub_le_abs_sub_iff habove).mpr (by linarith), fun htie => ?_⟩)
      by_contra heven
      have hmiddle := (abs_sub_le_abs_sub_iff' habove).mp htie.ge
      exact (hodd (by omega)).2 (le_antisymm hhigh (by linarith))

/-- What is no farther from a magnitude than half of the gap below it is rounded to it. -/
theorem nearest_succ_of_near {q : ℚ} {p : Nat} (hp : p + 1 < infinite)
    (hnear : 2 * |value (p + 1) - q| ≤ gap p)
    (hodd : (p + 1) % 2 = 1 → 2 * |value (p + 1) - q| < gap p) : Nearest q (p + 1) := by
  have hbelow := le_abs_self (value (p + 1) - q)
  have habove := neg_le_abs (value (p + 1) - q)
  have hgap := gap_mono (Nat.le_succ p)
  refine (nearest_succ_iff hp).mpr ⟨⟨by linarith, by linarith⟩, fun h => ?_⟩
  have hlt := hodd h
  exact ⟨(by linarith : _ < _).ne, (by linarith : _ < _).ne⟩

/-- What is rounded to a magnitude is no farther from it than half of the gap below it, unless it lies
above a magnitude with a larger gap there. -/
theorem near_of_nearest_succ {q : ℚ} {p : Nat} (hp : p + 1 < infinite) (h : Nearest q (p + 1))
    (hside : q ≤ value (p + 1) ∨ ¬Lopsided (p + 1)) :
    2 * |value (p + 1) - q| ≤ gap p ∧ ((p + 1) % 2 = 1 → 2 * |value (p + 1) - q| < gap p) := by
  obtain ⟨⟨hlow, hhigh⟩, hodd⟩ := (nearest_succ_iff hp).mp h
  rcases le_total q (value (p + 1)) with hq | hq
  · rw [abs_sub_of_ge hq]
    exact ⟨hlow, fun h => lt_of_le_of_ne hlow (hodd h).1⟩
  · rw [abs_sub_of_le hq]
    rcases hside with hq' | hsame
    · obtain rfl := le_antisymm hq hq'
      rw [sub_self, mul_zero]
      exact ⟨(gap_pos p).le, fun _ => gap_pos p⟩
    · rw [gap_eq_of_not_lopsided hsame]
      exact ⟨hhigh, fun h => lt_of_le_of_ne hhigh (hodd h).2⟩

/-- What is closer to a magnitude than something that is rounded to it is rounded to it as well; only what
lies above a magnitude with a larger gap there says nothing of what lies below. -/
theorem Nearest.of_closer {q q' : ℚ} {p : Nat} (hp : p + 1 < infinite) (h : Nearest q (p + 1))
    (hcloser : |value (p + 1) - q'| ≤ |value (p + 1) - q|)
    (hside : q ≤ value (p + 1) ∨ ¬Lopsided (p + 1)) : Nearest q' (p + 1) := by
  obtain ⟨hnear, hodd⟩ := near_of_nearest_succ hp h hside
  exact nearest_succ_of_near hp (by linarith) fun h => by linarith [hodd h]

/-! ## Finding the nearest magnitude -/

theorem div_eq_add_fraction (n : Nat) {d : Nat} (hd : 0 < d) :
    (n : ℚ) / d = (n / d : Nat) + (n % d : Nat) / d := by
  have hd' : (d : ℚ) ≠ 0 := by exact_mod_cast hd.ne'
  have hdivMod : (n : ℚ) = d * (n / d : Nat) + (n % d : Nat) := by exact_mod_cast (Nat.div_add_mod n d).symm
  rw [div_eq_iff hd']
  field_simp
  linarith

/-- A quotient lies above a whole number by a fraction `f`, and its nearest whole number is this one or
the next, as `f` is below or above a half; where it is a half, the even one of the two. -/
theorem roundDiv_cases (n : Nat) {d : Nat} (hd : 0 < d) :
    ∃ f : ℚ, (n : ℚ) / d = (n / d : Nat) + f ∧ 0 ≤ f ∧ f < 1 ∧
      ((roundDiv n d = n / d ∧ 2 * f ≤ 1 ∧ (2 * f = 1 → n / d % 2 = 0)) ∨
       (roundDiv n d = n / d + 1 ∧ 1 ≤ 2 * f ∧ (2 * f = 1 → n / d % 2 = 1))) := by
  have hd' : (0 : ℚ) < d := by exact_mod_cast hd
  have hlt : ((n % d : Nat) : ℚ) < d := by exact_mod_cast Nat.mod_lt n hd
  have hle : 2 * (((n % d : Nat) : ℚ) / d) ≤ 1 ↔ 2 * (n % d) ≤ d := by
    rw [← mul_div_assoc, div_le_one hd']
    exact_mod_cast Iff.rfl
  have hge : 1 ≤ 2 * (((n % d : Nat) : ℚ) / d) ↔ d ≤ 2 * (n % d) := by
    rw [← mul_div_assoc, one_le_div hd']
    exact_mod_cast Iff.rfl
  have heq : 2 * (((n % d : Nat) : ℚ) / d) = 1 ↔ 2 * (n % d) = d := by
    rw [← mul_div_assoc, div_eq_one_iff_eq hd'.ne']
    exact_mod_cast Iff.rfl
  refine ⟨(n % d : Nat) / d, div_eq_add_fraction n hd, by positivity, (div_lt_one hd').mpr hlt, ?_⟩
  rw [hle, hge, heq, roundDiv]
  split
  · exact .inl ⟨rfl, by omega, by omega⟩
  · exact .inr ⟨rfl, by omega, by omega⟩

/-- No whole number is nearer to a quotient. -/
theorem roundDiv_nearest (n : Nat) {d : Nat} (hd : 0 < d) (k : Nat) :
    |(roundDiv n d : ℚ) - n / d| ≤ |(k : ℚ) - n / d| := by
  obtain ⟨f, hf, hf0, hf1, hcases⟩ := roundDiv_cases n hd
  rw [hf]
  generalize n / d = a at hcases ⊢
  have hk : 1 - f ≤ |(k : ℚ) - (a + f)| ∨ f ≤ |(k : ℚ) - (a + f)| := by
    rcases Nat.lt_or_ge a k with h | h
    · have hle : (a : ℚ) + 1 ≤ k := by exact_mod_cast h
      rw [abs_sub_of_ge (by linarith)]
      exact .inl (by linarith)
    · have hle : (k : ℚ) ≤ a := by exact_mod_cast h
      rw [abs_sub_of_le (by linarith)]
      exact .inr (by linarith)
  rcases hcases with ⟨hrounded, hhalf, -⟩ | ⟨hrounded, hhalf, -⟩
  · rw [hrounded, abs_sub_of_le (by linarith)]
    rcases hk with h | h <;> linarith
  · rw [hrounded, Nat.cast_succ, abs_sub_of_ge (by linarith)]
    rcases hk with h | h <;> linarith

theorem abs_roundDiv_sub_le (n : Nat) {d : Nat} (hd : 0 < d) : 2 * |(roundDiv n d : ℚ) - n / d| ≤ 1 := by
  obtain ⟨f, hf, hf0, hf1, hcases⟩ := roundDiv_cases n hd
  rw [hf]
  rcases hcases with ⟨hrounded, hhalf, -⟩ | ⟨hrounded, hhalf, -⟩
  · rw [hrounded, abs_sub_of_le (by linarith)]
    linarith
  · rw [hrounded, Nat.cast_succ, abs_sub_of_ge (by linarith)]
    linarith

/-- The quotient in units is cut to a significand by the shift that its length asks for. -/
theorem significand_shift (k : Nat) : Significand (k.log2 - 52) (k / 2 ^ (k.log2 - 52)) := by
  have hpow := Nat.two_pow_pos (k.log2 - 52)
  constructor
  · rw [Nat.div_lt_iff_lt_mul hpow, ← Nat.pow_add]
    exact Nat.lt_log2_self.trans_le (Nat.pow_le_pow_right (by decide) (by omega))
  · by_cases hshort : k.log2 ≤ 52
    · exact .inl (by omega)
    · have hk : k ≠ 0 := by
        rintro rfl
        exact hshort (by decide)
      refine .inr ?_
      rw [Nat.le_div_iff_mul_le hpow, ← Nat.pow_add, show 52 + (k.log2 - 52) = k.log2 by omega]
      exact Nat.log2_self_le hk

theorem nearestMagnitude_eq (n d : Nat) :
    nearestMagnitude n d = min (((n * 2 ^ 1074 / d).log2 - 52) * 2 ^ 52 +
      roundDiv (n * 2 ^ 1074) (d * 2 ^ ((n * 2 ^ 1074 / d).log2 - 52))) infinite := by
  unfold nearestMagnitude
  generalize 1074 = e
  simp only [Nat.shiftLeft_eq]

/-- `nearestMagnitude` finds the magnitude that is nearest to a quotient. -/
theorem nearest_nearestMagnitude (n : Nat) {d : Nat} (hd : 0 < d) :
    Nearest ((n : ℚ) / d) (nearestMagnitude n d) := by
  have hsignificand := significand_shift (n * 2 ^ 1074 / d)
  rw [nearestMagnitude_eq]
  generalize (n * 2 ^ 1074 / d).log2 - 52 = s at hsignificand ⊢
  rw [Nat.div_div_eq_div_mul] at hsignificand
  obtain ⟨f, hf, hf0, hf1, hcases⟩ := roundDiv_cases (n * 2 ^ 1074) (Nat.mul_pos hd (Nat.two_pow_pos s))
  generalize n * 2 ^ 1074 / (d * 2 ^ s) = r at hsignificand hf hcases
  generalize roundDiv (n * 2 ^ 1074) (d * 2 ^ s) = rounded at hcases ⊢
  -- The quotient lies `r + f` steps from zero.
  have hvalue := value_significand hsignificand
  have hvalue' := value_significand_succ hsignificand
  have hq : (n : ℚ) / d = spacing s * (r + f) := by
    have hd' : (d : ℚ) ≠ 0 := by exact_mod_cast hd.ne'
    rw [← hf, spacing, Nat.cast_mul, Nat.cast_mul, Nat.cast_pow, Nat.cast_pow, Nat.cast_ofNat]
    field_simp
  have hstep := spacing_pos s
  have hlow : value (s * 2 ^ 52 + r) ≤ (n : ℚ) / d := by
    rw [hvalue, hq]
    exact mul_le_mul_of_nonneg_left (by linarith) hstep.le
  have hhigh : (n : ℚ) / d ≤ value (s * 2 ^ 52 + r + 1) := by
    rw [hvalue', hq]
    exact mul_le_mul_of_nonneg_left (by linarith) hstep.le
  have hmiddle : value (s * 2 ^ 52 + r) + value (s * 2 ^ 52 + r + 1) - 2 * ((n : ℚ) / d) =
      spacing s * (1 - 2 * f) := by
    rw [hvalue, hvalue', hq]
    ring
  have hle : 2 * ((n : ℚ) / d) ≤ value (s * 2 ^ 52 + r) + value (s * 2 ^ 52 + r + 1) ↔ 2 * f ≤ 1 := by
    rw [← sub_nonneg, hmiddle, mul_nonneg_iff_of_pos_left hstep, sub_nonneg]
  have hge : value (s * 2 ^ 52 + r) + value (s * 2 ^ 52 + r + 1) ≤ 2 * ((n : ℚ) / d) ↔ 1 ≤ 2 * f := by
    rw [← sub_nonpos, hmiddle, ← neg_nonneg, ← mul_neg, mul_nonneg_iff_of_pos_left hstep, neg_nonneg,
      sub_nonpos]
  have hlt := value_strictMono (Nat.lt_succ_self (s * 2 ^ 52 + r))
  have hparity : (s * 2 ^ 52 + r) % 2 = r % 2 := by omega
  rcases Nat.lt_or_ge (s * 2 ^ 52 + r) infinite with hfinite | hlarge
  · refine nearest_of_between hfinite hlow hhigh ?_
    rw [abs_sub_le_abs_sub_iff hlt, abs_sub_le_abs_sub_iff' hlt, hle, hge, hparity]
    rcases hcases with ⟨rfl, hhalf, htie⟩ | ⟨hnext, hhalf, htie⟩
    · refine .inl ⟨Nat.min_eq_left hfinite.le, hhalf, fun heq => ?_⟩
      exact htie (le_antisymm hhalf (hge.mp ((abs_sub_le_abs_sub_iff' hlt).mp heq.ge)))
    · rw [hnext, ← Nat.add_assoc]
      refine .inr ⟨Nat.min_eq_left hfinite, hhalf, fun heq => ?_⟩
      exact htie (le_antisymm (hle.mp ((abs_sub_le_abs_sub_iff hlt).mp heq.le)) hhalf)
  · have hrounded : r ≤ rounded := by
      rcases hcases with ⟨h, -⟩ | ⟨h, -⟩ <;> omega
    rw [Nat.min_eq_right (hlarge.trans (Nat.add_le_add_left hrounded _))]
    exact nearest_infinite ((value_strictMono.monotone hlarge).trans hlow)

end Stencil.Binary64
