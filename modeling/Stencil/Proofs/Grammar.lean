import Stencil.Proofs.Numbers
import Stencil.Proofs.Quoting
import Stencil.Proofs.Spelling

/-!
# The grammar of tags

What may stand between the braces of a tag, said without the readers: one inductive predicate for each
kind of part, from numbers (`IsNumber`) and quoted strings up to slots and definitions (`IsTag`). `Blanks` stands
wherever there may be blanks, none included. `DividesByZero` says how a body begins that is refused
because of a zero divisor, whatever follows it.

A literal of the grammar is what the reader of literals takes as a whole (`isLiteral_iff`), and what this
reader takes off the front of anything is one (`literal_of_readLiteral`).
-/

namespace Stencil.Grammar

open Ascii
open Spelling (Blanks Name)
open Tag (readLiteral)

/-! ## Literals -/

/-- What may stand between two quotes `q`: anything in which each of these quotes is escaped, and each
backslash escapes the byte behind it. -/
inductive IsQuoted (q : UInt8) : Bytes → Prop
  | nil : IsQuoted q []
  | plain {b : UInt8} {s : Bytes} (hb : b ≠ backslash) (hq : b ≠ q) (h : IsQuoted q s) :
    IsQuoted q (b :: s)
  | escaped {b : UInt8} {s : Bytes} (h : IsQuoted q s) : IsQuoted q (backslash :: b :: s)

inductive IsLiteral : Bytes → Prop
  | text {q : UInt8} {s : Bytes} (hq : isQuote q) (h : IsQuoted q s) : IsLiteral (q :: (s ++ [q]))
  | number {s : Bytes} (h : IsNumber s) : IsLiteral s

/-! ## Lists -/

/-- An entry of a list: a literal, a name with a literal, or a name alone where `bare` allows it. -/
inductive IsEntry (bare : Bool) : Bytes → Prop
  | literal {s : Bytes} (h : IsLiteral s) : IsEntry bare s
  | default (n : Name) (v w : Blanks) {s : Bytes} (h : IsLiteral s) :
    IsEntry bare (n.bytes ++ (v.bytes ++ equals :: (w.bytes ++ s)))
  | name (n : Name) (h : bare = true) : IsEntry bare n.bytes

/-- What stands behind an opening parenthesis: entries with commas between them, and the closing
parenthesis. A comma may stand behind the last entry. -/
inductive IsList (bare : Bool) : Bytes → Prop
  | close (w : Blanks) : IsList bare (w.bytes ++ [closeParen])
  | last (v : Blanks) {s : Bytes} (h : IsEntry bare s) (w : Blanks) :
    IsList bare (v.bytes ++ s ++ w.bytes ++ [closeParen])
  | more (v : Blanks) {s : Bytes} (h : IsEntry bare s) (w : Blanks) {rest : Bytes}
      (hrest : IsList bare rest) : IsList bare (v.bytes ++ s ++ w.bytes ++ comma :: rest)

/-- A list in parentheses. -/
inductive IsParenthesized (bare : Bool) : Bytes → Prop
  | mk (w : Blanks) {s : Bytes} (h : IsList bare s) : IsParenthesized bare (w.bytes ++ openParen :: s)

/-! ## Slots and definitions -/

/-- A slot up to its operation: the name, with a mark directly in front of it or without, and a list or
none. -/
inductive IsHead (bare : Bool) (name : Name) : Bytes → Prop
  | mk (before : Blanks) {mark list : Bytes} (hmark : mark = [] ∨ mark = [atSign])
      (hlist : list = [] ∨ IsParenthesized bare list) :
    IsHead bare name (before.bytes ++ mark ++ name.bytes ++ list)

/-- An operator and a number, which is not a zero to divide by. -/
inductive IsOperation : Bytes → Prop
  | mk (v : Blanks) (operator : Operator) (w : Blanks) {s : Bytes} (h : IsNumber s)
      (hzero : operator = .divide → ¬ReadsAsZero s) :
    IsOperation (v.bytes ++ operator.symbol :: (w.bytes ++ s))

inductive IsSlot : Bytes → Prop
  | mk {name : Name} {head operation : Bytes} (hhead : IsHead false name head)
      (hoperation : operation = [] ∨ IsOperation operation) (behind : Blanks) :
    IsSlot (head ++ operation ++ behind.bytes)

/-- What a definition binds its name to: a literal, or a function with a list. -/
inductive IsContent : Bytes → Prop
  | literal {s : Bytes} (h : IsLiteral s) : IsContent s
  | call (function : Name) {list : Bytes} (h : IsParenthesized false list) :
    IsContent (function.bytes ++ list)

inductive IsDefinition : Bytes → Prop
  | mk (before : Blanks) (name : Name) (v w : Blanks) {content : Bytes} (h : IsContent content)
      (behind : Blanks) :
    IsDefinition (before.bytes ++ name.bytes ++ v.bytes ++ equals ::
      (w.bytes ++ content ++ behind.bytes))

/-- What may stand between the braces of a tag. -/
inductive IsTag : Bytes → Prop
  | slot {s : Bytes} (h : IsSlot s) : IsTag s
  | definition {s : Bytes} (h : IsDefinition s) : IsTag s

/-- A slot of this name that is divided by a number that reads as zero, and anything behind the number.
The list of the slot may have bare names in it. -/
inductive DividesByZero (name : Name) : Bytes → Prop
  | mk {head : Bytes} (hhead : IsHead true name head) (v w : Blanks) {s rest : Bytes} (h : IsNumber s)
      (hzero : ReadsAsZero s) (hrest : Stops inNumber rest) :
    DividesByZero name (head ++ v.bytes ++ slash :: (w.bytes ++ s ++ rest))

/-! ## Reading strings -/

theorem splitUnescaped_of_isQuoted {q : UInt8} (hq : isQuote q) {s : Bytes} (h : IsQuoted q s)
    (rest : Bytes) : splitUnescaped q true false (s ++ q :: rest) = (s, q :: rest) := by
  have hbackslash : q ≠ backslash := by
    rintro rfl
    exact absurd hq (by decide)
  induction h with
  | nil => simp [splitUnescaped, hbackslash]
  | plain hb hne _ ih => simp [splitUnescaped, hb, hne, ih]
  | escaped _ ih => simp [splitUnescaped, ih]

/-- What is in front of the closing quote; where the first byte of all is escaped, what is behind it. -/
theorem isQuoted_of_splitUnescaped {q : UInt8} {escaped : Bool} {s content rest : Bytes}
    (h : splitUnescaped q true escaped s = (content, q :: rest)) :
    if escaped then ∃ b behind, content = b :: behind ∧ IsQuoted q behind else IsQuoted q content := by
  fun_induction splitUnescaped q true escaped s generalizing content with
  | case1 escaped => cases h
  | case2 escaped b s hb before more heq ih =>
    cases h
    obtain rfl : escaped = false := by simpa using hb.2.2
    obtain ⟨c, behind, rfl, hbehind⟩ := ih heq
    exact hb.1 ▸ .escaped hbehind
  | case3 escaped b s hb hstop =>
    cases h
    obtain rfl : escaped = false := by simpa using hstop.2
    exact .nil
  | case4 escaped b s hb hstop before more heq ih =>
    cases h
    have hbehind : IsQuoted q before := ih heq
    cases escaped with
    | true => exact ⟨b, before, rfl, hbehind⟩
    | false => exact .plain (by simpa using hb) (by simpa using hstop) hbehind

/-! ## Reading literals -/

/-- What is read off the front of some bytes as a literal is one. -/
theorem literal_of_readLiteral {s rest : Bytes} {value : Value}
    (h : readLiteral s = .ok (value, rest)) : ∃ literal, IsLiteral literal ∧ s = literal ++ rest := by
  rcases Tag.readLiteral_eq_ok h with ⟨q, quoted, content, rfl, hq, hsplit, -⟩ | ⟨x, rfl, hx, -⟩
  · refine ⟨_, .text hq (isQuoted_of_splitUnescaped hsplit), ?_⟩
    rw [← Piece.append_of_closed hsplit, List.cons_append]
  · exact ⟨_, .number (read?_eq_some_iff.mp ⟨x, hx⟩), (Tag.splitNumber_append s).symm⟩

/-- A literal is read as a whole. -/
theorem isLiteral_iff {s : Bytes} : IsLiteral s ↔ ∃ value, readLiteral s = .ok (value, []) := by
  constructor
  · rintro (⟨hq, h⟩ | h)
    · exact ⟨_, Tag.readLiteral_of_closed hq (splitUnescaped_of_isQuoted hq h [])⟩
    · obtain ⟨x, hx⟩ := read?_eq_some_iff.mpr h
      have hread := readLiteral_number h (.nil inNumber) hx
      rw [List.append_nil] at hread
      exact ⟨.number x, hread⟩
  · rintro ⟨value, h⟩
    obtain ⟨literal, hliteral, hs⟩ := literal_of_readLiteral h
    rw [List.append_nil] at hs
    exact hs ▸ hliteral

end Stencil.Grammar
