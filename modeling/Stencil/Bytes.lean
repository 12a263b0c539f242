/-!
# Byte strings

Everything a template is made of, and everything it becomes, is a string of bytes: offsets, spans
and lengths count bytes, whatever text they encode. This module holds the type, the bytes that have
a meaning of their own, and the few operations on byte strings that several parts share:

* `Bytes.ofString`, `Bytes.ofNat`, `Bytes.ofInt`: the bytes of a text and of a number in decimal;
* `Bytes.untilNul`: what is left of a byte string where a NUL byte ends it;
* `Bytes.splitAround?`: the first occurrence of one byte string in another;
* `Bytes.splice?`: a byte string with a range exchanged for something else.
-/

namespace Stencil

/-- A string of bytes. -/
abbrev Bytes := List UInt8

/-! ## Bytes with a meaning -/

namespace Ascii

abbrev tab : UInt8 := 0x09
abbrev newline : UInt8 := 0x0a
abbrev verticalTab : UInt8 := 0x0b
abbrev formFeed : UInt8 := 0x0c
abbrev carriageReturn : UInt8 := 0x0d
abbrev space : UInt8 := 0x20
abbrev doubleQuote : UInt8 := 0x22
abbrev singleQuote : UInt8 := 0x27
abbrev openParen : UInt8 := 0x28
abbrev closeParen : UInt8 := 0x29
abbrev star : UInt8 := 0x2a
abbrev plus : UInt8 := 0x2b
abbrev comma : UInt8 := 0x2c
abbrev minus : UInt8 := 0x2d
abbrev point : UInt8 := 0x2e
abbrev slash : UInt8 := 0x2f
abbrev zero : UInt8 := 0x30
abbrev nine : UInt8 := 0x39
abbrev equals : UInt8 := 0x3d
abbrev atSign : UInt8 := 0x40
abbrev backslash : UInt8 := 0x5c
abbrev underscore : UInt8 := 0x5f
abbrev openBrace : UInt8 := 0x7b
abbrev closeBrace : UInt8 := 0x7d

/-- The six blank bytes: space, tab, newline, carriage return, vertical tab and form feed. -/
def isBlank (b : UInt8) : Bool :=
  b == space || b == tab || b == newline || b == carriageReturn || b == verticalTab || b == formFeed

def isDigit (b : UInt8) : Bool := zero ≤ b && b ≤ nine

def isQuote (b : UInt8) : Bool := b == doubleQuote || b == singleQuote

/-- A name starts with an ASCII letter or an underscore. -/
def isNameStart (b : UInt8) : Bool :=
  (0x61 ≤ b && b ≤ 0x7a) || (0x41 ≤ b && b ≤ 0x5a) || b == underscore

/-- After its first byte a name may hold digits as well. -/
def isNameByte (b : UInt8) : Bool := isNameStart b || isDigit b

end Ascii

namespace Bytes

/-! ## Writing -/

/-- The bytes of a text in UTF-8. -/
def ofString (s : String) : Bytes := s.toUTF8.data.toList

/-- A natural number in decimal digits. -/
def ofNat (n : Nat) : Bytes := (Nat.toDigits 10 n).map fun c => c.toNat.toUInt8

/-- An integer in decimal digits, with a minus sign where it is negative. -/
def ofInt (n : Int) : Bytes :=
  if n < 0 then Ascii.minus :: ofNat n.natAbs else ofNat n.natAbs

/-! ## Taking apart -/

/-- The bytes before the first NUL, or all of them. -/
def untilNul (s : Bytes) : Bytes := s.takeWhile (· != 0)

/-- Nothing but blank bytes, or nothing at all. -/
def isBlank (s : Bytes) : Bool := s.all Ascii.isBlank

/-- A byte string without its leading blank bytes. -/
def trimStart (s : Bytes) : Bytes := s.dropWhile Ascii.isBlank

/-- What stands before and after the first occurrence of `needle`. -/
def splitAround? (needle : Bytes) : Bytes → Option (Bytes × Bytes)
  | [] => if needle.isEmpty then some ([], []) else none
  | b :: rest =>
    if needle.isPrefixOf (b :: rest) then some ([], (b :: rest).drop needle.length)
    else (splitAround? needle rest).map fun (before, after) => (b :: before, after)

/-- `text` with its range from `start` up to `stop` exchanged for `inserted`. The range may start
anywhere, also after its own end, but it must stop inside the text. -/
def splice? (text inserted : Bytes) (start stop : Nat) : Option Bytes :=
  if text.length < stop then none else some (text.take start ++ inserted ++ text.drop stop)

/-! ## Lengths -/

theorem length_trimStart_le (s : Bytes) : s.trimStart.length ≤ s.length :=
  (List.dropWhile_sublist _).length_le

theorem append_of_splitAround? {needle s before after : Bytes}
    (h : splitAround? needle s = some (before, after)) : before ++ needle ++ after = s := by
  induction s generalizing before with
  | nil => simp_all [splitAround?]
  | cons b rest ih =>
    simp only [splitAround?] at h
    split at h
    · rename_i hp
      obtain ⟨t, ht⟩ := List.isPrefixOf_iff_prefix.mp hp
      obtain ⟨rfl, rfl⟩ : [] = before ∧ (b :: rest).drop needle.length = after := by simpa using h
      simp [← ht]
    · obtain ⟨⟨x, y⟩, hxy, he⟩ := Option.map_eq_some_iff.mp h
      obtain ⟨rfl, rfl⟩ : b :: x = before ∧ y = after := by simpa using he
      simpa using ih hxy

end Bytes

end Stencil
