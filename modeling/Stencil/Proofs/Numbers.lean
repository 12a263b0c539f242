import Stencil.Proofs.ByteKinds

/-!
# The grammar of numbers

What a number looks like in a tag (`IsNumber`). These are the bytes that have a value as a number
(`read?_eq_some_iff`), and the reader of literals takes such a number off the front of anything in which
it does not go on (`readLiteral_number`).
-/

namespace Stencil.Grammar

open Ascii
open Tag (readLiteral splitNumber)

/-- Digits with at most one point in front of them, among them or behind them. -/
inductive IsUnsigned : Bytes → Prop
  | whole {digits : Bytes} (hne : digits ≠ []) (h : ∀ b ∈ digits, isDigit b) : IsUnsigned digits
  | pointed {whole fraction : Bytes} (hne : whole ++ fraction ≠ [])
      (h : ∀ b ∈ whole ++ fraction, isDigit b) : IsUnsigned (whole ++ point :: fraction)

/-- A number with a minus sign or without. -/
inductive IsNumber : Bytes → Prop
  | positive {s : Bytes} (h : IsUnsigned s) : IsNumber s
  | negative {s : Bytes} (h : IsUnsigned s) : IsNumber (minus :: s)

/-- The double nearest to the number is a zero. -/
def ReadsAsZero (s : Bytes) : Prop := ∃ x, Numeral.read? s = some x ∧ x.isZero

/-! ## Reading numbers -/

theorem split?_digits {digits : Bytes} (hne : digits ≠ []) (h : ∀ b ∈ digits, isDigit b) :
    Numeral.split? digits = some (digits, []) := by
  have htake := Stops.takeWhile_append h (Stops.nil isDigit)
  have hdrop := Stops.dropWhile_append h (Stops.nil isDigit)
  rw [List.append_nil] at htake hdrop
  simp [Numeral.split?, htake, hdrop, hne]

theorem split?_pointed {whole fraction : Bytes} (hne : whole ++ fraction ≠ [])
    (h : ∀ b ∈ whole ++ fraction, isDigit b) :
    Numeral.split? (whole ++ point :: fraction) = some (whole, fraction) := by
  have hstops : Stops isDigit (point :: fraction) := .cons (by decide) _
  obtain ⟨hwhole, hfraction⟩ := List.forall_mem_append.mp h
  have htake := Stops.takeWhile_append hwhole hstops
  have hdrop := Stops.dropWhile_append hwhole hstops
  simp only [Numeral.split?, htake, hdrop, List.all_eq_true.mpr hfraction]
  simpa using hne

theorem split?_of_isUnsigned {s : Bytes} (h : IsUnsigned s) : ∃ parts, Numeral.split? s = some parts := by
  cases h with
  | whole hne h => exact ⟨_, split?_digits hne h⟩
  | pointed hne h => exact ⟨_, split?_pointed hne h⟩

theorem isUnsigned_of_split? {s : Bytes} {parts : Bytes × Bytes} (h : Numeral.split? s = some parts) :
    IsUnsigned s := by
  have happend := List.takeWhile_append_dropWhile (p := isDigit) (l := s)
  have hwhole : ∀ b ∈ s.takeWhile isDigit, isDigit b :=
    List.all_eq_true.mp List.all_takeWhile
  obtain ⟨hparts, hne⟩ := Option.filter_eq_some_iff.mp h
  split at hparts
  · rename_i hnil
    cases hparts
    rw [hnil, List.append_nil] at happend
    rw [happend] at hwhole hne
    exact .whole (by simpa using hne) hwhole
  · rename_i b fraction hcons
    split at hparts
    · rename_i hpoint
      cases hparts
      obtain ⟨rfl, hfraction⟩ := hpoint
      rw [← happend, hcons]
      exact .pointed (by simpa using hne)
        (List.forall_mem_append.mpr ⟨hwhole, List.all_eq_true.mp hfraction⟩)
    · cases hparts

theorem readUnsigned?_eq_some_iff {negative : Bool} {s : Bytes} :
    (∃ x, Numeral.readUnsigned? negative s = some x) ↔ IsUnsigned s := by
  constructor
  · rintro ⟨x, hx⟩
    obtain ⟨parts, hparts, -⟩ := Option.map_eq_some_iff.mp hx
    exact isUnsigned_of_split? hparts
  · intro h
    obtain ⟨parts, hparts⟩ := split?_of_isUnsigned h
    exact ⟨_, Option.map_eq_some_iff.mpr ⟨parts, hparts, rfl⟩⟩

theorem inNumber_of_isUnsigned {s : Bytes} (h : IsUnsigned s) : ∀ b ∈ s, inNumber b := by
  have hdigit {b : UInt8} (hb : isDigit b) : inNumber b := by simp [inNumber, hb]
  cases h with
  | whole hne h => exact fun b hb => hdigit (h b hb)
  | pointed hne h =>
    rw [List.forall_mem_append] at h
    rw [List.forall_mem_append, List.forall_mem_cons]
    exact ⟨fun b hb => hdigit (h.1 b hb), rfl, fun b hb => hdigit (h.2 b hb)⟩

theorem IsUnsigned.ne_nil {s : Bytes} (h : IsUnsigned s) : s ≠ [] := by
  cases h with
  | whole hne h => exact hne
  | pointed hne h => simp

theorem IsUnsigned.exists_cons {s : Bytes} (h : IsUnsigned s) : ∃ b t, s = b :: t ∧ inNumber b := by
  obtain ⟨b, t, rfl⟩ := List.exists_cons_of_ne_nil h.ne_nil
  exact ⟨b, t, rfl, inNumber_of_isUnsigned h b (List.mem_cons_self ..)⟩

/-- The numbers of the grammar are the ones that have a value. -/
theorem read?_eq_some_iff {s : Bytes} : (∃ x, Numeral.read? s = some x) ↔ IsNumber s := by
  constructor
  · rintro ⟨x, hx⟩
    cases s with
    | nil => cases hx
    | cons b t =>
      rw [Numeral.read?] at hx
      split at hx
      · rename_i hb
        exact hb ▸ .negative (readUnsigned?_eq_some_iff.mp ⟨x, hx⟩)
      · exact .positive (readUnsigned?_eq_some_iff.mp ⟨x, hx⟩)
  · rintro (h | h)
    · obtain ⟨b, t, rfl, hb⟩ := h.exists_cons
      rw [Numeral.read?, if_neg (ne_minus_of_inNumber hb)]
      exact readUnsigned?_eq_some_iff.mpr h
    · rw [Numeral.read?, if_pos rfl]
      exact readUnsigned?_eq_some_iff.mpr h

/-- A number is split off in front of anything in which it does not go on. -/
theorem splitNumber_append {s rest : Bytes} (h : IsNumber s) (hrest : Stops inNumber rest) :
    splitNumber (s ++ rest) = (s, rest) := by
  cases h with
  | positive h =>
    have hminus : (s ++ rest).head? ≠ some minus := by
      obtain ⟨b, t, rfl, hb⟩ := h.exists_cons
      simpa using ne_minus_of_inNumber hb
    have hs := inNumber_of_isUnsigned h
    simp only [splitNumber, if_neg hminus, List.nil_append, List.length_nil, List.drop_zero]
    exact Prod.ext (Stops.takeWhile_append hs hrest) (Stops.dropWhile_append hs hrest)
  | @negative s h =>
    have hs := inNumber_of_isUnsigned h
    exact Prod.ext (congrArg (minus :: ·) (Stops.takeWhile_append hs hrest))
      (Stops.dropWhile_append hs hrest)

theorem IsNumber.exists_cons {s : Bytes} (h : IsNumber s) : ∃ b t, s = b :: t ∧ Tag.startsNumber b := by
  cases h with
  | positive h =>
    obtain ⟨b, t, rfl, hb⟩ := h.exists_cons
    exact ⟨b, t, rfl, .inr (by simpa [inNumber, or_comm] using hb)⟩
  | negative h => exact ⟨minus, _, rfl, .inl rfl⟩

theorem readLiteral_number {s rest : Bytes} (h : IsNumber s) (hrest : Stops inNumber rest) {x : Binary64}
    (hx : Numeral.read? s = some x) : readLiteral (s ++ rest) = .ok (.number x, rest) := by
  have hsplit := splitNumber_append h hrest
  obtain ⟨b, t, rfl, hb⟩ := h.exists_cons
  rw [List.cons_append] at hsplit ⊢
  rw [Tag.readLiteral_of_number hb (by rw [hsplit]; exact hx), hsplit]

end Stencil.Grammar
