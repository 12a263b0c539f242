import Stencil.Proofs.Numbers
import Stencil.Proofs.Spelling

/-!
# Reading tokens

The smallest readers of a tag take off the front what `Spelling` says can stand there, whatever
follows, as long as the token does not run into it (`Stops`): `Blanks.trimStart_append`,
`Name.readName_append`, and for a string or a number `readLiteral_write`.
-/

namespace Stencil

open Ascii
open Bytes (trimStart)

/-! ## Numbers -/

namespace Spelling

open Grammar (IsNumber IsUnsigned read?_eq_some_iff readLiteral_number split?_digits split?_pointed)
open Tag (readLiteral readName startsName)

namespace Number

/-- The digits of a number and its point, without its sign. -/
def unsigned (n : Number) : Bytes :=
  n.whole.bytes ++ n.fraction.elim [] fun fraction => point :: fraction.bytes

theorem write_eq (n : Number) : n.write = (if n.negative then [minus] else []) ++ n.unsigned :=
  List.append_assoc ..

theorem isUnsigned_unsigned (n : Number) : IsUnsigned n.unsigned := by
  have hwhole := List.all_eq_true.mp n.whole.digits
  have hne : n.whole.bytes ≠ [] := n.whole.nonempty
  cases hf : n.fraction with
  | none => simpa [unsigned, hf] using IsUnsigned.whole hne hwhole
  | some fraction =>
    have hfraction := List.all_eq_true.mp fraction.digits
    rw [unsigned, hf]
    exact .pointed (List.append_ne_nil_of_left_ne_nil hne _)
      (List.forall_mem_append.mpr ⟨hwhole, hfraction⟩)

/-- A number is written as the grammar has it. -/
theorem isNumber_write (n : Number) : IsNumber n.write := by
  rw [write_eq]
  cases n.negative with
  | true => exact .negative n.isUnsigned_unsigned
  | false => exact .positive n.isUnsigned_unsigned

theorem split?_unsigned (n : Number) :
    Numeral.split? n.unsigned = some (n.whole.bytes, n.fractionBytes) := by
  have hwhole := List.all_eq_true.mp n.whole.digits
  have hne : n.whole.bytes ≠ [] := n.whole.nonempty
  cases hf : n.fraction with
  | none => simpa [unsigned, fractionBytes, hf] using split?_digits hne hwhole
  | some fraction =>
    have hfraction := List.all_eq_true.mp fraction.digits
    rw [unsigned, fractionBytes, hf]
    exact split?_pointed (List.append_ne_nil_of_left_ne_nil hne _)
      (List.forall_mem_append.mpr ⟨hwhole, hfraction⟩)

theorem read?_write (n : Number) : Numeral.read? n.write = some n.value := by
  have hread : ∀ negative, Numeral.readUnsigned? negative n.unsigned = some
      (.ofMagnitude negative (Decimal.mk (Numeral.natOfDigits (n.whole.bytes ++ n.fractionBytes))
        (-n.fractionBytes.length)).magnitude) := by
    intro negative
    rw [Numeral.readUnsigned?, split?_unsigned]
    rfl
  obtain ⟨b, t, hb, hnumber⟩ := n.isUnsigned_unsigned.exists_cons
  rw [write_eq, value]
  cases n.negative with
  | true => exact hread true
  | false =>
    rw [if_neg Bool.false_ne_true, List.nil_append, ← hread false, hb, Numeral.read?,
      if_neg (ne_minus_of_inNumber hnumber)]

end Number

/-! ## Blanks, names and literals -/

theorem Blanks.trimStart_append (w : Blanks) (s : Bytes) : trimStart (w.bytes ++ s) = trimStart s :=
  List.dropWhile_append_of_pos (List.all_eq_true.mp w.blank)

theorem Blanks.trimStart_bytes (w : Blanks) : trimStart w.bytes = [] := by
  rw [← w.bytes.append_nil, w.trimStart_append]
  rfl

theorem Blanks.stops_append (w : Blanks) {p : UInt8 → Bool} (hp : ∀ b, isBlank b → p b = false)
    {s : Bytes} (hs : Stops p s) : Stops p (w.bytes ++ s) :=
  .append (fun b hb => hp b (List.all_eq_true.mp w.blank b hb)) hs

theorem Blanks.stops_bytes (w : Blanks) {p : UInt8 → Bool} (hp : ∀ b, isBlank b → p b = false) :
    Stops p w.bytes := by
  rw [← w.bytes.append_nil]
  exact w.stops_append hp (.nil p)

theorem Blanks.slash_notMem (w : Blanks) : slash ∉ w.bytes := fun hmem =>
  absurd (List.all_eq_true.mp w.blank slash hmem) (by decide)

theorem trimStart_of_stops {s : Bytes} (h : Stops isBlank s) : trimStart s = s :=
  Stops.dropWhile_append (s := []) (fun _ hb => by cases hb) h

theorem trimStart_append_of_startsLiteral {s : Bytes} (h : ∃ b t, s = b :: t ∧ startsLiteral b)
    (rest : Bytes) : trimStart (s ++ rest) = s ++ rest := by
  obtain ⟨b, t, rfl, hstart⟩ := h
  exact trimStart_of_stops (.cons (isBlank_of_startsLiteral b hstart) _)

theorem Name.readName_append (n : Name) {rest : Bytes} (h : Stops isNameByte rest) :
    readName (n.bytes ++ rest) = (n.bytes, rest) :=
  have hname := List.all_eq_true.mp n.nameBytes
  Prod.ext (Stops.takeWhile_append hname h) (Stops.dropWhile_append hname h)

theorem Name.startsName_append (n : Name) (rest : Bytes) : startsName (n.bytes ++ rest) := by
  have hn := n.starts
  revert hn
  cases n.bytes <;> simp [startsName]

theorem Name.stops_append (n : Name) (rest : Bytes) : Stops isBlank (n.bytes ++ rest) := by
  have hn := n.startsName_append rest
  cases hs : n.bytes ++ rest with
  | nil => exact .nil _
  | cons b s =>
    rw [hs] at hn
    exact .cons (isBlank_of_isNameByte b (by simp_all [startsName, isNameByte])) s

theorem Name.slash_notMem (n : Name) : slash ∉ n.bytes := fun hmem =>
  absurd (List.all_eq_true.mp n.nameBytes slash hmem) (by decide)

theorem Quote.isQuote_byte (q : Quote) : isQuote q.byte := by cases q <;> decide

theorem Quote.byte_ne_backslash (q : Quote) : q.byte ≠ backslash := by cases q <;> decide

theorem Literal.exists_write_eq_cons (l : Literal) : ∃ b t, l.write = b :: t ∧ startsLiteral b := by
  cases l with
  | text quote content => exact ⟨quote.byte, _, rfl, .inl quote.isQuote_byte⟩
  | number n =>
    obtain ⟨b, t, hb, hstart⟩ := n.isNumber_write.exists_cons
    exact ⟨b, t, hb, .inr hstart⟩

theorem readLiteral_write (l : Literal) {rest : Bytes} (hrest : Stops inNumber rest) :
    readLiteral (l.write ++ rest) = .ok (l.value, rest) := by
  cases l with
  | text quote content =>
    have hsplit := splitUnescaped_escape quote.byte_ne_backslash content rest
    have hread := Tag.readLiteral_of_closed quote.isQuote_byte hsplit
    rw [unescape_escape] at hread
    rw [Literal.write, List.cons_append, List.cons_append, List.append_assoc, List.singleton_append]
    exact hread
  | number n => exact readLiteral_number n.isNumber_write hrest n.read?_write

/-! ## Literals in any form -/

theorem exists_cons_of_readLiteral {s rest : Bytes} {value : Value}
    (h : readLiteral s = .ok (value, rest)) : ∃ b t, s = b :: t ∧ startsLiteral b := by
  cases s with
  | nil => cases h
  | cons b t =>
    refine ⟨b, t, rfl, ?_⟩
    by_contra hb
    rw [Tag.readLiteral_of_neither (fun hq => hb (.inl hq)) fun hn => hb (.inr hn)] at h
    cases h

/-- What is a literal is read as this literal whatever follows, as long as a number does not go on. -/
theorem readLiteral_append {s rest : Bytes} {value : Value} (h : readLiteral s = .ok (value, []))
    (hrest : Stops inNumber rest) : readLiteral (s ++ rest) = .ok (value, rest) := by
  rcases Tag.readLiteral_eq_ok h with ⟨q, quoted, content, rfl, hq, hsplit, rfl⟩ | ⟨x, hnil, hx, rfl⟩
  · exact Tag.readLiteral_of_closed hq (splitUnescaped_append hsplit rest)
  · have hself := Tag.splitNumber_append s
    rw [hnil, List.append_nil] at hself
    rw [hself] at hx
    exact readLiteral_number (read?_eq_some_iff.mp ⟨x, hx⟩) hrest hx

end Spelling

end Stencil
