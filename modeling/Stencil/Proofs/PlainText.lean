import Stencil.Template

/-!
# Plain text

What plain text shows is the text with every escaped opener exchanged for an opener, from left to
right (`showText_eq_replace`). A run of plain text ends where a tag begins or the source does
(`opensTag_of_splitText`), and one that is not empty shows something (`showText_ne_nil`).
-/

namespace Stencil

namespace Bytes

/-- `replace` from behind the next `skip` bytes on, which belong to an occurrence already found. -/
def replaceFrom (needle replacement : Bytes) : (skip : Nat) → Bytes → Bytes
  | _, [] => []
  | n + 1, _ :: rest => replaceFrom needle replacement n rest
  | 0, b :: rest =>
    if needle.isPrefixOf (b :: rest) then
      replacement ++ replaceFrom needle replacement (needle.length - 1) rest
    else b :: replaceFrom needle replacement 0 rest

/-- A text with every occurrence of `needle` exchanged for `replacement`, found from left to right
and without overlap. -/
def replace (needle replacement text : Bytes) : Bytes := replaceFrom needle replacement 0 text

end Bytes

namespace Piece

/-- Two opening braces behind a backslash. -/
def escapedOpener : Bytes := Ascii.backslash :: opener

theorem isPrefixOf_escapedOpener (b : UInt8) (rest : Bytes) :
    escapedOpener.isPrefixOf (b :: rest) = true ↔ b = Ascii.backslash ∧ opensTag rest := by
  rw [escapedOpener, List.isPrefixOf_cons_cons, Bool.and_eq_true, beq_iff_eq, eq_comm, opensTag]

theorem take_of_opensTag {s : Bytes} (h : opensTag s) : s.take opener.length = opener := by
  obtain ⟨t, rfl⟩ := List.isPrefixOf_iff_prefix.mp h
  exact List.take_left

theorem showText_eq_replaceFrom (n : Nat) (s : Bytes) :
    showText n s = s.take n ++ Bytes.replaceFrom escapedOpener opener n s := by
  induction s generalizing n with
  | nil => simp [showText, Bytes.replaceFrom]
  | cons b rest ih =>
    cases n with
    | succ n => simp [showText, Bytes.replaceFrom, ih]
    | zero =>
      have hp := isPrefixOf_escapedOpener b rest
      by_cases h : b = Ascii.backslash ∧ opensTag rest
      · rw [showText, if_pos h, Bytes.replaceFrom, if_pos (hp.mpr h), ih, take_of_opensTag h.2]
        rfl
      · rw [showText, if_neg h, Bytes.replaceFrom, if_neg (mt hp.mp h), ih]
        rfl

/-- What plain text shows: each escaped opener has lost its backslash. -/
theorem showText_eq_replace (s : Bytes) : showText 0 s = Bytes.replace escapedOpener opener s :=
  showText_eq_replaceFrom 0 s

theorem showText_ne_nil {n : Nat} {s : Bytes} (h : s ≠ []) : showText n s ≠ [] := by
  cases s with
  | nil => exact absurd rfl h
  | cons b rest =>
    cases n with
    | succ n => simp [showText]
    | zero =>
      rw [showText]
      split
      · rename_i ho
        rw [showText_eq_replaceFrom, take_of_opensTag ho.2]
        simp [opener]
      · simp

theorem opensTag_of_splitText (n : Nat) (s : Bytes) :
    (splitText n s).2 = [] ∨ opensTag (splitText n s).2 := by
  fun_induction splitText n s with
  | case1 => exact .inl rfl
  | case2 n b rest before after heq ih => simpa [heq] using ih
  | case3 b rest ho => exact .inr ho
  | case4 b rest ho hidden before after heq ih => simpa [heq] using ih

end Piece

end Stencil
