import Mathlib.Data.List.TakeWhile
import Stencil.Proofs.TagReading

/-!
# Kinds of bytes

A reader takes a run of bytes of one kind off the front. It takes all of the run and no more where the
run does not go on in what follows (`Stops.takeWhile_append`, `Stops.dropWhile_append`). The kinds of
bytes at which the tokens of a tag start and end are apart from each other.
-/

namespace Stencil

open Ascii

/-! ## Runs of bytes -/

/-- A run of bytes with a property does not go on in these bytes. -/
def Stops (p : UInt8 → Bool) (s : Bytes) : Prop := ∀ b ∈ s.head?, p b = false

namespace Stops

theorem nil (p : UInt8 → Bool) : Stops p [] := fun _ hb => by cases hb

theorem cons {p : UInt8 → Bool} {b : UInt8} (h : p b = false) (s : Bytes) : Stops p (b :: s) :=
  fun _ hc => Option.mem_some.mp hc ▸ h

theorem append {p : UInt8 → Bool} {s t : Bytes} (hs : ∀ b ∈ s, p b = false) (ht : Stops p t) :
    Stops p (s ++ t) := by
  cases s with
  | nil => exact ht
  | cons b s => exact cons (hs b (List.mem_cons_self ..)) _

theorem takeWhile_append {p : UInt8 → Bool} {s t : Bytes} (hs : ∀ b ∈ s, p b) (ht : Stops p t) :
    (s ++ t).takeWhile p = s := by
  rw [List.takeWhile_append_of_pos hs]
  cases t with
  | nil => simp
  | cons b t => rw [List.takeWhile_cons_of_neg (by simp [ht b rfl]), List.append_nil]

theorem dropWhile_append {p : UInt8 → Bool} {s t : Bytes} (hs : ∀ b ∈ s, p b) (ht : Stops p t) :
    (s ++ t).dropWhile p = t := by
  rw [List.dropWhile_append_of_pos hs]
  cases t with
  | nil => rfl
  | cons b t => rw [List.dropWhile_cons_of_neg (by simp [ht b rfl])]

theorem dropWhile (p : UInt8 → Bool) (s : Bytes) : Stops p (s.dropWhile p) := by
  intro b hb
  have hnot := List.head?_dropWhile_not p s
  rwa [hb] at hnot

end Stops

/-! ## Kinds of bytes -/

/-- The bytes of a number behind its sign. -/
def inNumber (b : UInt8) : Bool := isDigit b || b == point

/-- Does a literal start with this byte? -/
abbrev startsLiteral (b : UInt8) : Prop := isQuote b ∨ Tag.startsNumber b

/-- Bytes over which the scanner of tags passes whatever follows. -/
def isPlain (b : UInt8) : Bool := !isQuote b && b != closeBrace

/-- What holds of the six blank bytes. -/
theorem forall_isBlank {p : UInt8 → Prop}
    (h : p space ∧ p tab ∧ p newline ∧ p carriageReturn ∧ p verticalTab ∧ p formFeed) (b : UInt8)
    (hb : isBlank b) : p b := by
  obtain ⟨hspace, htab, hnewline, hreturn, hvertical, hfeed⟩ := h
  simp only [isBlank, Bool.or_eq_true, beq_iff_eq, or_assoc] at hb
  rcases hb with rfl | rfl | rfl | rfl | rfl | rfl <;> assumption

/-- No byte of a kind that leaves out the two quotes is a quote. -/
theorem isQuote_of_leftOut {p : UInt8 → Prop} (hdouble : ¬p doubleQuote) (hsingle : ¬p singleQuote)
    {b : UInt8} (hb : p b) : isQuote b = false := by
  have hne {c : UInt8} (hc : ¬p c) : b ≠ c := fun h => hc (h ▸ hb)
  simp [isQuote, hne hdouble, hne hsingle]

theorem inNumber_of_isBlank : ∀ b, isBlank b → inNumber b = false := forall_isBlank (by decide)

theorem isNameByte_of_isBlank : ∀ b, isBlank b → isNameByte b = false := forall_isBlank (by decide)

theorem isPlain_of_isBlank : ∀ b, isBlank b → isPlain b := forall_isBlank (by decide)

theorem isBlank_of_isNameByte (b : UInt8) (hb : isNameByte b) : isBlank b = false := by
  refine Bool.eq_false_iff.mpr fun hblank => ?_
  simp [isNameByte_of_isBlank b hblank] at hb

theorem isPlain_of_isNameByte (b : UInt8) (hb : isNameByte b) : isPlain b := by
  have hquote := isQuote_of_leftOut (p := (isNameByte ·)) (by decide) (by decide) hb
  have hbrace : b ≠ closeBrace := by
    rintro rfl
    exact absurd hb (by decide)
  simp [isPlain, hquote, hbrace]

theorem isPlain_of_isDigit (b : UInt8) (hb : isDigit b) : isPlain b :=
  isPlain_of_isNameByte b (by simp [isNameByte, hb])

theorem isPlain_of_startsNumber (b : UInt8) (hb : Tag.startsNumber b) : isPlain b := by
  rcases hb with rfl | rfl | hdigit
  · rfl
  · rfl
  · exact isPlain_of_isDigit b hdigit

theorem ne_closeBrace_of_isQuote {b : UInt8} (hb : isQuote b) : b ≠ closeBrace := by
  rintro rfl
  exact absurd hb (by decide)

theorem ne_minus_of_inNumber {b : UInt8} (hb : inNumber b) : b ≠ minus := by
  rintro rfl
  exact absurd hb (by decide)

theorem isBlank_of_startsLiteral (b : UInt8) (hb : startsLiteral b) : isBlank b = false := by
  refine Bool.eq_false_iff.mpr fun hblank => ?_
  exact forall_isBlank (p := (¬startsLiteral ·)) (by decide) b hblank hb

/-- The digits lie below the letters. -/
theorem isNameStart_of_isDigit (b : UInt8) (hb : isDigit b) : isNameStart b = false := by
  obtain ⟨-, hnine⟩ : zero ≤ b ∧ b ≤ nine := by simpa [isDigit] using hb
  have hlt {c : UInt8} (hc : nine < c) : ¬c ≤ b := fun h =>
    UInt8.not_le.mpr hc (UInt8.le_trans h hnine)
  have hne : b ≠ underscore := by
    rintro rfl
    exact hlt (c := underscore) (by decide) (UInt8.le_refl _)
  simp [isNameStart, hlt (c := 0x61) (by decide), hlt (c := 0x41) (by decide), hne]

theorem isNameStart_of_startsLiteral (b : UInt8) (hb : startsLiteral b) : isNameStart b = false := by
  rcases hb with hquote | rfl | rfl | hdigit
  · obtain rfl | rfl : b = doubleQuote ∨ b = singleQuote := by simpa [isQuote] using hquote
    · rfl
    · rfl
  · rfl
  · rfl
  · exact isNameStart_of_isDigit b hdigit

theorem ne_closeParen_of_startsLiteral (b : UInt8) (hb : startsLiteral b) : b ≠ closeParen := by
  rintro rfl
  exact absurd hb (by decide)

end Stencil
