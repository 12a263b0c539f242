import Stencil.Bytes

/-!
# Backslash escapes

A backslash protects the byte after it. `splitUnescaped` cuts a byte string at the first byte that
is not protected and equals the stop byte, and `unescape` drops the protecting backslashes; reading
a quoted string is one after the other. Nothing is lost by the cut (`append_splitUnescaped`).
-/

namespace Stencil

/-- The bytes before the first unescaped `stop`, and the bytes from it on. With `escapes` a backslash
that is not escaped itself protects the next byte; `escaped` says whether the first byte of all is
protected. -/
def splitUnescaped (stop : UInt8) (escapes : Bool) : (escaped : Bool) → Bytes → Bytes × Bytes
  | _, [] => ([], [])
  | escaped, b :: rest =>
    if b = Ascii.backslash ∧ escapes ∧ !escaped then
      let (before, after) := splitUnescaped stop escapes true rest
      (b :: before, after)
    else if b = stop ∧ !escaped then
      ([], b :: rest)
    else
      let (before, after) := splitUnescaped stop escapes false rest
      (b :: before, after)

/-- A byte string without the backslash of each escaped byte. A backslash at the very end protects
nothing and stays. -/
def unescape : Bytes → Bytes
  | [] => []
  | [b] => [b]
  | b :: c :: rest => if b = Ascii.backslash then c :: unescape rest else b :: unescape (c :: rest)

theorem append_splitUnescaped (stop : UInt8) (escapes escaped : Bool) (s : Bytes) :
    (splitUnescaped stop escapes escaped s).1 ++ (splitUnescaped stop escapes escaped s).2 = s := by
  induction s generalizing escaped with
  | nil => rfl
  | cons b rest ih =>
    simp only [splitUnescaped]
    split
    · simp [ih]
    · split
      · rfl
      · simp [ih]

theorem length_splitUnescaped_snd_le (stop : UInt8) (escapes escaped : Bool) (s : Bytes) :
    (splitUnescaped stop escapes escaped s).2.length ≤ s.length := by
  have := congrArg List.length (append_splitUnescaped stop escapes escaped s)
  simp only [List.length_append] at this
  omega

end Stencil
