import Stencil.Escape

/-!
# Strings between quotes

`splitUnescaped` cuts a byte string in front of the stop byte (`splitUnescaped_snd`). `escape` writes a
byte string so that it can stand between two quotes: the first quote that is not escaped is the
closing one (`splitUnescaped_escape`), and without its backslashes the string is the old one again
(`unescape_escape`).
-/

namespace Stencil

open Ascii

/-- A cut at an unescaped byte is a cut in front of that byte. -/
theorem splitUnescaped_snd (stop : UInt8) (escapes escaped : Bool) (s : Bytes) :
    (splitUnescaped stop escapes escaped s).2 = [] ∨
      ∃ rest, (splitUnescaped stop escapes escaped s).2 = stop :: rest := by
  fun_induction splitUnescaped stop escapes escaped s with
  | case1 => exact .inl rfl
  | case2 escaped b rest h before after heq ih => simpa [heq] using ih
  | case3 escaped b rest h hstop => exact .inr ⟨rest, by rw [hstop.1]⟩
  | case4 escaped b rest h hstop before after heq ih => simpa [heq] using ih

/-- The first unescaped byte is found again whatever follows. -/
theorem splitUnescaped_append {stop b : UInt8} {escapes escaped : Bool} {s before after : Bytes}
    (h : splitUnescaped stop escapes escaped s = (before, b :: after)) (more : Bytes) :
    splitUnescaped stop escapes escaped (s ++ more) = (before, b :: (after ++ more)) := by
  fun_induction splitUnescaped stop escapes escaped s generalizing before with
  | case1 => cases h
  | case2 escaped c rest hc before' after' heq ih =>
    cases h
    simp only [List.cons_append, splitUnescaped, if_pos hc, ih heq]
  | case3 escaped c rest hc hstop =>
    cases h
    simp only [List.cons_append, splitUnescaped, if_neg hc, if_pos hstop]
  | case4 escaped c rest hc hstop before' after' heq ih =>
    cases h
    simp only [List.cons_append, splitUnescaped, if_neg hc, if_neg hstop, ih heq]

/-- A byte string with a backslash in front of every backslash and every `q`. -/
def escape (q : UInt8) (s : Bytes) : Bytes :=
  s.flatMap fun b => if b = backslash ∨ b = q then [backslash, b] else [b]

theorem escape_cons_of_special {q b : UInt8} (h : b = backslash ∨ b = q) (s : Bytes) :
    escape q (b :: s) = backslash :: b :: escape q s := by
  rw [escape, List.flatMap_cons, if_pos h]
  rfl

theorem escape_cons_of_plain {q b : UInt8} (h : ¬(b = backslash ∨ b = q)) (s : Bytes) :
    escape q (b :: s) = b :: escape q s := by
  rw [escape, List.flatMap_cons, if_neg h]
  rfl

theorem unescape_cons_of_ne {b : UInt8} (h : b ≠ backslash) (s : Bytes) :
    unescape (b :: s) = b :: unescape s := by
  cases s with
  | nil => rfl
  | cons c s => rw [unescape, if_neg h]

theorem unescape_escape (q : UInt8) (s : Bytes) : unescape (escape q s) = s := by
  induction s with
  | nil => rfl
  | cons b s ih =>
    by_cases h : b = backslash ∨ b = q
    · rw [escape_cons_of_special h, unescape, if_pos rfl, ih]
    · rw [escape_cons_of_plain h, unescape_cons_of_ne fun hb => h (.inl hb), ih]

theorem splitUnescaped_escape {q : UInt8} (hq : q ≠ backslash) (s rest : Bytes) :
    splitUnescaped q true false (escape q s ++ q :: rest) = (escape q s, q :: rest) := by
  induction s with
  | nil => simp [escape, splitUnescaped, hq]
  | cons b s ih =>
    by_cases h : b = backslash ∨ b = q
    · simp [escape_cons_of_special h, splitUnescaped, ih]
    · obtain ⟨hb, hbq⟩ := not_or.mp h
      simp [escape_cons_of_plain h, splitUnescaped, hb, hbq, ih]

end Stencil
