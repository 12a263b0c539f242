import Stencil.Proofs.Decimals
import Stencil.Proofs.Numbers

/-!
# What the text of a number denotes

A numeral can have a power of ten behind its digits; it denotes a decimal with a sign (`Numeral.decimal?`).
Wherever the text of a decimal has its point, with zeros in front of its digits or behind them or with a
power of ten, it denotes a decimal of the same value (`unsignedDecimal?_write`).
-/

namespace Stencil

open Ascii

/-! ## Digits -/

namespace Bytes

theorem length_ofNat (n : Nat) : (ofNat n).length = Decimal.digitCount n := List.length_map _

theorem ofNat_ne_nil (n : Nat) : ofNat n ≠ [] :=
  List.ne_nil_of_length_pos (by rw [length_ofNat]; exact Decimal.digitCount_pos n)

theorem toNat_of_mem_toDigits {n : Nat} {c : Char} (hc : c ∈ Nat.toDigits 10 n) :
    zero.toNat ≤ c.toNat ∧ c.toNat ≤ nine.toNat ∧ c.toNat.toUInt8.toNat = c.toNat := by
  have hdigit := Nat.isDigit_of_mem_toDigits (by decide) (by decide) hc
  simp only [Char.isDigit, Bool.and_eq_true, decide_eq_true_eq, ge_iff_le, UInt32.le_iff_toNat_le] at hdigit
  obtain ⟨hlow, hhigh⟩ : 48 ≤ c.toNat ∧ c.toNat ≤ 57 := hdigit
  exact ⟨hlow, hhigh, Nat.mod_eq_of_lt (by omega)⟩

theorem isDigit_of_mem_ofNat {n : Nat} : ∀ b ∈ ofNat n, isDigit b := by
  intro b hb
  obtain ⟨c, hc, rfl⟩ := List.mem_map.mp hb
  obtain ⟨hlow, hhigh, hbyte⟩ := toNat_of_mem_toDigits hc
  rw [isDigit, Bool.and_eq_true, decide_eq_true_eq, decide_eq_true_eq, UInt8.le_iff_toNat_le,
    UInt8.le_iff_toNat_le, hbyte]
  exact ⟨hlow, hhigh⟩

end Bytes

namespace Numeral

theorem natOfDigits_append (s t : Bytes) :
    natOfDigits (s ++ t) = natOfDigits s * 10 ^ t.length + natOfDigits t := by
  unfold natOfDigits
  rw [List.foldl_append]
  generalize List.foldl _ 0 s = n
  induction t using List.reverseRecOn with
  | nil => simp
  | append_singleton t b ih =>
    rw [List.foldl_append, List.foldl_append, ih, List.length_append, Nat.pow_add]
    simp only [List.foldl_cons, List.foldl_nil, List.length_singleton, Nat.pow_one]
    ring

theorem natOfDigits_zeros (k : Nat) : natOfDigits (List.replicate k zero) = 0 := by
  induction k with
  | zero => rfl
  | succ k ih =>
    rw [List.replicate_succ', natOfDigits_append, ih]
    rfl

theorem natOfDigits_ofNat (n : Nat) : natOfDigits (Bytes.ofNat n) = n := by
  have hchars := Nat.ofDigitChars_toDigits (b := 10) (n := n) (by decide) (by decide)
  rw [Nat.ofDigitChars_eq_foldl] at hchars
  rw [natOfDigits, Bytes.ofNat, List.foldl_map]
  refine Eq.trans (List.foldl_ext _ _ _ fun k c hc => ?_) hchars
  rw [(Bytes.toNat_of_mem_toDigits hc).2.2]
  rfl

/-! ## What numerals denote -/

/-- The letter between the digits of a numeral and its power of ten. -/
abbrev powerMark : UInt8 := 0x65

/-- The power of ten of a numeral: digits with a sign or without. -/
def power? (s : Bytes) : Option Int :=
  let negative := s.head? = some minus
  let digits := if negative ∨ s.head? = some plus then s.tail else s
  if digits.isEmpty ∨ !digits.all isDigit then none
  else some (if negative then -natOfDigits digits else natOfDigits digits)

/-- The decimal that an unsigned numeral denotes: its digits, with a point or without, and a power of ten
behind them or none. -/
def unsignedDecimal? (s : Bytes) : Option Decimal :=
  let exponent? := match s.dropWhile (· != powerMark) with
    | [] => some 0
    | _ :: power => power? power
  (split? (s.takeWhile (· != powerMark))).bind fun (whole, fraction) =>
    exponent?.map fun exponent => ⟨natOfDigits (whole ++ fraction), exponent - fraction.length⟩

/-- The decimal that a numeral denotes, and whether it has a minus sign. -/
def decimal? : Bytes → Option (Bool × Decimal)
  | [] => none
  | b :: rest =>
    if b = minus then (unsignedDecimal? rest).map (true, ·)
    else (unsignedDecimal? (b :: rest)).map (false, ·)

/-- The double that is nearest to what a numeral denotes. -/
def double? (s : Bytes) : Option Binary64 :=
  (decimal? s).map fun (negative, d) => .ofMagnitude negative d.magnitude

open Grammar (IsUnsigned)

theorem ne_powerMark_of_isUnsigned {s : Bytes} (h : IsUnsigned s) : ∀ b ∈ s, (b != powerMark) = true := by
  intro b hb
  have hnumber := Grammar.inNumber_of_isUnsigned h b hb
  rw [bne_iff_ne]
  rintro rfl
  exact absurd hnumber (by decide)

theorem unsignedDecimal?_of_split? {s whole fraction : Bytes} (h : split? s = some (whole, fraction)) :
    unsignedDecimal? s = some ⟨natOfDigits (whole ++ fraction), -fraction.length⟩ := by
  have hmark := ne_powerMark_of_isUnsigned (Grammar.isUnsigned_of_split? h)
  have htake := Stops.takeWhile_append hmark (.nil _)
  have hdrop := Stops.dropWhile_append hmark (.nil _)
  rw [List.append_nil] at htake hdrop
  simp only [unsignedDecimal?, htake, hdrop, h, Option.bind_some, Option.map_some, Int.zero_sub]

theorem unsignedDecimal?_of_power {s power whole fraction : Bytes} {exponent : Int}
    (h : split? s = some (whole, fraction)) (hpower : power? power = some exponent) :
    unsignedDecimal? (s ++ powerMark :: power) =
      some ⟨natOfDigits (whole ++ fraction), exponent - fraction.length⟩ := by
  have hmark := ne_powerMark_of_isUnsigned (Grammar.isUnsigned_of_split? h)
  have hstops : Stops (· != powerMark) (powerMark :: power) := .cons (by decide) _
  simp only [unsignedDecimal?, Stops.takeWhile_append hmark hstops, Stops.dropWhile_append hmark hstops, h,
    hpower, Option.bind_some, Option.map_some]

theorem power?_sign_ofNat (e : Int) :
    power? ((if e < 0 then minus else plus) :: Bytes.ofNat e.natAbs) = some e := by
  have hall : (Bytes.ofNat e.natAbs).all isDigit := List.all_eq_true.mpr Bytes.isDigit_of_mem_ofNat
  have hne : (Bytes.ofNat e.natAbs).isEmpty = false := by simpa using Bytes.ofNat_ne_nil e.natAbs
  by_cases he : e < 0
  · simp only [power?, if_pos he, List.head?_cons, List.tail_cons, true_or, if_true, hne, hall,
      natOfDigits_ofNat]
    simp only [Bool.not_true, Bool.false_eq_true, or_self, if_false, Option.some.injEq]
    omega
  · have hplus : (some plus : Option UInt8) ≠ some minus := by decide
    simp only [power?, if_neg he, List.head?_cons, List.tail_cons, or_true, if_true, hne, hall,
      natOfDigits_ofNat, if_neg hplus]
    simp only [Bool.not_true, Bool.false_eq_true, or_self, if_false, Option.some.injEq]
    omega

end Numeral

/-! ## Where the point is written -/

namespace Grammar

theorem split?_led {digits : Bytes} (h : ∀ b ∈ digits, isDigit b) (k : Nat) :
    Numeral.split? ([zero] ++ point :: (List.replicate k zero ++ digits)) =
      some ([zero], List.replicate k zero ++ digits) := by
  refine split?_pointed (List.cons_ne_nil zero _)
    (List.forall_mem_append.mpr ⟨List.forall_mem_singleton.mpr rfl, ?_⟩)
  exact List.forall_mem_append.mpr ⟨fun b hb => List.eq_of_mem_replicate hb ▸ rfl, h⟩

section

variable {digits : Bytes} (hne : digits ≠ []) (h : ∀ b ∈ digits, isDigit b)
include hne h

theorem split?_padded (k : Nat) :
    Numeral.split? (digits ++ List.replicate k zero) = some (digits ++ List.replicate k zero, []) := by
  refine split?_digits (List.append_ne_nil_of_left_ne_nil hne _) (List.forall_mem_append.mpr ⟨h, ?_⟩)
  exact fun b hb => List.eq_of_mem_replicate hb ▸ rfl

theorem split?_inserted (n : Nat) :
    Numeral.split? (digits.take n ++ point :: digits.drop n) = some (digits.take n, digits.drop n) := by
  refine split?_pointed ?_ ?_
  · rwa [List.take_append_drop]
  · rwa [List.take_append_drop]

theorem split?_leading :
    Numeral.split? (digits.take 1 ++ if digits.length ≤ 1 then [] else point :: digits.drop 1) =
      some (digits.take 1, digits.drop 1) := by
  split
  · rename_i hone
    rw [List.append_nil, List.take_of_length_le hone, List.drop_eq_nil_of_le hone]
    exact split?_digits hne h
  · exact split?_inserted hne h 1

end

end Grammar

/-! ## How decimals are written -/

namespace Decimal

open Numeral

/-- Where the point of a decimal stands: behind so many of its digits. -/
def pointPlace (d : Decimal) : Int := digitCount d.digits + d.exponent

/-- The decimal is written without a power of ten. -/
def IsPositional (d : Decimal) : Prop := -positional.zeros < d.pointPlace ∧ d.pointPlace ≤ positional.places

/-- The text of a decimal is digits with a point or without, or these with a power of ten behind them. -/
theorem write_cases (d : Decimal) :
    (d.IsPositional ∧ ∃ whole fraction, split? d.write = some (whole, fraction) ∧
      (Decimal.mk (natOfDigits (whole ++ fraction)) (-fraction.length)).value = d.value) ∨
    (¬d.IsPositional ∧ ∃ s power whole fraction exponent, d.write = s ++ powerMark :: power ∧
      split? s = some (whole, fraction) ∧ power? power = some exponent ∧
      (Decimal.mk (natOfDigits (whole ++ fraction)) (exponent - fraction.length)).value = d.value) := by
  have hdigit := Bytes.isDigit_of_mem_ofNat (n := d.digits)
  have hne := Bytes.ofNat_ne_nil d.digits
  have hlength := Bytes.length_ofNat d.digits
  have hdigits := natOfDigits_ofNat d.digits
  have hcount := digitCount_pos d.digits
  have hzeros : positional.zeros = 6 := rfl
  have hplaces : positional.places = 21 := rfl
  unfold IsPositional pointPlace
  rw [write]
  generalize Bytes.ofNat d.digits = digits at hdigit hne hlength hdigits ⊢
  simp only [hlength, value]
  split
  · rename_i h
    refine .inl ⟨⟨by omega, h.2⟩, _, _, Grammar.split?_padded hne hdigit _, ?_⟩
    rw [List.append_nil, natOfDigits_append, natOfDigits_zeros, hdigits, List.length_replicate,
      List.length_nil, Nat.add_zero, Nat.cast_mul, cast_tenPow, Int.toNat_of_nonneg h.1, Nat.cast_zero,
      neg_zero, zpow_zero, mul_one]
  · rename_i hpadded
    split
    · rename_i h
      refine .inl ⟨⟨by omega, h.2⟩, _, _, Grammar.split?_inserted hne hdigit _, ?_⟩
      rw [List.take_append_drop, hdigits, List.length_drop, hlength]
      congr 2
      omega
    · rename_i hinserted
      split
      · rename_i h
        refine .inl ⟨⟨by omega, by omega⟩, _, _, Grammar.split?_led hdigit _, ?_⟩
        rw [natOfDigits_append, natOfDigits_append, hdigits, natOfDigits_zeros, List.length_append,
          List.length_replicate, hlength, show natOfDigits [zero] = 0 from rfl, Nat.zero_mul, Nat.zero_mul,
          Nat.zero_add, Nat.zero_add]
        congr 2
        omega
      · rename_i hled
        refine .inr ⟨by omega, digits.take 1 ++ if digits.length ≤ 1 then [] else Ascii.point :: digits.drop 1,
          _, _, _, digitCount d.digits + d.exponent - 1, ?_, Grammar.split?_leading hne hdigit,
          power?_sign_ofNat _, ?_⟩
        · rw [hlength, List.append_assoc _ (Bytes.ofString "e")]
          rfl
        · rw [List.take_append_drop, hdigits, List.length_drop, hlength]
          congr 2
          omega

/-- The text of a decimal denotes a decimal of its value. -/
theorem unsignedDecimal?_write (d : Decimal) :
    ∃ d', unsignedDecimal? d.write = some d' ∧ d'.value = d.value := by
  rcases d.write_cases with ⟨-, _, _, hsplit, hvalue⟩ | ⟨-, _, _, _, _, _, hwrite, hsplit, hpower, hvalue⟩
  · exact ⟨_, unsignedDecimal?_of_split? hsplit, hvalue⟩
  · rw [hwrite]
    exact ⟨_, unsignedDecimal?_of_power hsplit hpower, hvalue⟩

end Decimal

end Stencil
