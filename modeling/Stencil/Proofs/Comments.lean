import Stencil.Proofs.Blocks
import Stencil.Proofs.LiteralText

/-!
# Comments, line by line

Comments are taken out byte by byte, but a newline closes every comment, so what stands in front of one and
what stands behind it are stripped apart (`Comment.strip_append_newline`), and a line without newlines is cut
where its comment begins (`Comment.strip_line`). By induction along the newlines, the lines of a stripped text
are the cut lines of the text (`Comment.splitOn_strip`). No cut line has a comment, and a newline keeps the
slashes on its two sides apart, so there is nothing left to strip (`Comment.not_infix_strip`), neither in the
whole text nor in a part of it, such as the body of a block (`Template.definition_cases`). The main statement
is `Comment.strip_cuts_lines`.
-/

namespace Stencil

open Ascii
open Piece (opener closer closingTag blockText)

namespace Comment

/-- A line up to where its first comment begins. -/
def cutLine (line : Bytes) : Bytes :=
  match Bytes.splitAround? [slash, slash] line with
  | some (before, _) => before
  | none => line

/-! ## Cutting a line -/

theorem cutLine_cons (b : UInt8) (line : Bytes) :
    cutLine (b :: line) = if b = slash ∧ line.head? = some slash then [] else b :: cutLine line := by
  have hslashes : [slash, slash].isPrefixOf (b :: line) ↔ b = slash ∧ line.head? = some slash := by
    cases line <;> simp [@eq_comm _ slash]
  rw [cutLine, Bytes.splitAround?]
  by_cases h : b = slash ∧ line.head? = some slash
  · rw [if_pos (hslashes.mpr h), if_pos h]
  · rw [if_neg fun hp => h (hslashes.mp hp), if_neg h, cutLine]
    cases Bytes.splitAround? [slash, slash] line <;> rfl

theorem isPrefix_cutLine (line : Bytes) : cutLine line <+: line := by
  unfold cutLine
  split
  · rename_i before after h
    exact ⟨_, List.append_assoc .. ▸ Bytes.append_of_splitAround? h⟩
  · exact List.prefix_rfl

theorem not_infix_cutLine (line : Bytes) : ¬[slash, slash] <:+: cutLine line := by
  unfold cutLine
  split
  · rename_i before after h
    exact Bytes.not_infix_of_firstBehind (List.cons_ne_nil _ _) (Bytes.firstBehind_of_splitAround? h)
  · rename_i h
    exact Bytes.splitAround?_eq_none_iff.mp h

/-! ## Line by line -/

theorem stripFrom_append_newline (inside : Bool) (a b : Bytes) :
    stripFrom inside (a ++ newline :: b) = stripFrom inside a ++ newline :: strip b := by
  have hne : newline ≠ slash := by decide
  induction a generalizing inside with
  | nil => cases inside <;> simp [stripFrom, strip, hne]
  | cons c a ih =>
    cases inside with
    | true => by_cases hc : c = newline <;> simp [stripFrom, hc, ih]
    | false =>
      have hhead : (a ++ newline :: b).head? = some slash ↔ a.head? = some slash := by
        cases a <;> simp [hne]
      by_cases hc : c = slash ∧ a.head? = some slash
      · rw [List.cons_append, stripFrom, stripFrom, if_pos ⟨hc.1, hhead.mpr hc.2⟩, if_pos hc, ih]
      · rw [List.cons_append, stripFrom, stripFrom, if_neg fun h => hc ⟨h.1, hhead.mp h.2⟩, if_neg hc, ih,
          List.cons_append]

/-- Whatever stands on the two sides of a newline is stripped apart. -/
theorem strip_append_newline (a b : Bytes) : strip (a ++ newline :: b) = strip a ++ newline :: strip b :=
  stripFrom_append_newline false a b

theorem stripFrom_comment {line : Bytes} (h : newline ∉ line) : stripFrom true line = [] := by
  induction line with
  | nil => rfl
  | cons b line ih =>
    rw [List.mem_cons, not_or] at h
    rw [stripFrom, if_neg (Ne.symm h.1), ih h.2]

theorem strip_line {line : Bytes} (h : newline ∉ line) : strip line = cutLine line := by
  induction line with
  | nil => rfl
  | cons b line ih =>
    rw [List.mem_cons, not_or] at h
    rw [strip, stripFrom, cutLine_cons, stripFrom_comment h.2, ← ih h.2, strip]

theorem newline_notMem_cutLine {line : Bytes} (h : newline ∉ line) : newline ∉ cutLine line := fun hmem =>
  h ((isPrefix_cutLine line).subset hmem)

/-- The lines of a stripped text are those of the text, cut. -/
theorem splitOn_strip (t : Bytes) : (strip t).splitOn newline = (t.splitOn newline).map cutLine := by
  induction t using Bytes.separator_induction newline with
  | part line h =>
    rw [strip_line h, List.splitOn_eq_singleton h, List.splitOn_eq_singleton (newline_notMem_cutLine h)]
    rfl
  | append t line h ih =>
    rw [strip_append_newline, List.splitOn_append_cons_self, List.splitOn_append_cons_self, List.map_append,
      ih, strip_line h, List.splitOn_eq_singleton h, List.splitOn_eq_singleton (newline_notMem_cutLine h)]
    rfl

theorem strip_eq_intercalate (t : Bytes) :
    strip t = List.intercalate [newline] ((t.splitOn newline).map cutLine) := by
  rw [← splitOn_strip, List.intercalate_splitOn]

theorem count_newline_strip (t : Bytes) : (strip t).count newline = t.count newline := by
  induction t using Bytes.separator_induction newline with
  | part line h =>
    rw [strip_line h, List.count_eq_zero_of_not_mem h, List.count_eq_zero_of_not_mem (newline_notMem_cutLine h)]
  | append t line h ih =>
    rw [strip_append_newline, strip_line h, List.count_append, List.count_append, ih, List.count_cons_self,
      List.count_cons_self, List.count_eq_zero_of_not_mem h,
      List.count_eq_zero_of_not_mem (newline_notMem_cutLine h)]

/-- No comment is left, and none comes about where a comment was taken out. -/
theorem not_infix_strip (t : Bytes) : ¬[slash, slash] <:+: strip t := by
  induction t using Bytes.separator_induction newline with
  | part line h =>
    rw [strip_line h]
    exact not_infix_cutLine line
  | append t line h ih =>
    rw [strip_append_newline, strip_line h]
    intro hoccurs
    rcases Bytes.infix_append_cons (by decide) hoccurs with hfront | hback
    · exact ih hfront
    · exact not_infix_cutLine line hback

/-- In a part of a stripped text there is nothing to strip. -/
theorem strip_of_infix {part t : Bytes} (h : part <:+: strip t) : strip part = part :=
  strip_eq_self fun hoccurs => not_infix_strip t (hoccurs.trans h)

end Comment

/-! ## Blocks -/

theorem Piece.blockText_infix (body : Bytes) : blockText body <:+: body := by
  obtain ⟨front, back, happend, -, -⟩ := Spelling.betweenNewlines_blockText body
  exact ⟨front, back, happend.symm⟩

/-- The range of a definition in the source is one tag that defines it, or a block of which it holds the
text: a tag that is read as a slot, a body, and the closing tag. -/
theorem Template.definition_cases {source : Bytes} {d : Document} (h : parse source = .ok d) {span : Span}
    {f : Definition} (hf : .definition span f ∈ d.sections) :
    (∃ tag, span.slice source = opener ++ tag ++ closer ∧ Tag.read tag = .ok (.definition f)) ∨
      ∃ tag s body, span.slice source = opener ++ tag ++ closer ++ body ++ closingTag f.name ∧
        Tag.read tag = .ok (.slot s) ∧
        f = { name := s.name, content := { kind := .text, value := .text (blockText body) },
              params := s.params } := by
  obtain ⟨p, ⟨front, rest, hreads⟩, before, after, shown, more, hsource, -, hsection⟩ :=
    exists_makesSection h hf
  cases hreads with
  | text h => cases hsection
  | tag hsplit hread hof =>
    cases hof with
    | definition d =>
      cases hsection
      exact .inl ⟨_, Span.slice_of_append hsource rfl rfl, hread⟩
    | block hblock =>
      cases hsection
      exact .inr ⟨_, _, _, Span.slice_of_append hsource rfl rfl, hread, rfl⟩
    | slot hblock hparams => cases hsection

/-- A text without its comments is the text with each of its lines cut where the first comment of the line
begins. It has as many lines, no comment is left, what stands on the two sides of a newline is stripped apart,
and stripping again changes nothing: neither the whole text, nor what a block of the template that is read from
it holds, which is stripped again when it is rendered. -/
theorem Comment.strip_cuts_lines (t : Bytes) :
    strip t = List.intercalate [newline] ((t.splitOn newline).map cutLine) ∧
    (strip t).count newline = t.count newline ∧
    ¬[slash, slash] <:+: strip t ∧
    (∀ a b, strip (a ++ newline :: b) = strip a ++ newline :: strip b) ∧
    strip (strip t) = strip t ∧
    ∀ d, Template.parse (strip t) = .ok d → ∀ span f, .definition span f ∈ d.sections →
      (∃ tag, span.slice (strip t) = opener ++ tag ++ closer ∧ Tag.read tag = .ok (.definition f)) ∨
      ∃ tag s body, span.slice (strip t) = opener ++ tag ++ closer ++ body ++ closingTag f.name ∧
        Tag.read tag = .ok (.slot s) ∧
        f = { name := s.name, content := { kind := .text, value := .text (blockText body) },
              params := s.params } ∧
        strip (blockText body) = blockText body := by
  refine ⟨strip_eq_intercalate t, count_newline_strip t, not_infix_strip t, strip_append_newline,
    strip_of_infix List.infix_rfl, fun d hd span f hf => ?_⟩
  refine (Template.definition_cases hd hf).imp_right ?_
  rintro ⟨tag, s, body, hslice, hread, hf⟩
  have hbody : body <:+: strip t := by
    have hrange : span.slice (strip t) <:+: strip t :=
      (List.drop_suffix ..).isInfix.trans (List.take_prefix ..).isInfix
    rw [hslice] at hrange
    exact List.IsInfix.trans ⟨opener ++ tag ++ closer, closingTag f.name, rfl⟩ hrange
  exact ⟨tag, s, body, hslice, hread, hf, strip_of_infix ((Piece.blockText_infix body).trans hbody)⟩

/-- Three slashes at the end of a line, one at the end of a line, and one in front of a newline that belongs
to a tag. -/
theorem Comment.strip_cuts_lines_of_block :
    strip (Bytes.ofString "a///b\n\x7b\x7bx\x7d\x7d//\n1/2/ //c\n/\n\x7b\x7b/x\x7d\x7d") =
        Bytes.ofString "a\n\x7b\x7bx\x7d\x7d\n1/2/ \n/\n\x7b\x7b/x\x7d\x7d" ∧
      strip (Bytes.ofString "1/2/ \n/") = Bytes.ofString "1/2/ \n/" := by
  let t := Bytes.ofString "a///b\n\x7b\x7bx\x7d\x7d//\n1/2/ //c\n/\n\x7b\x7b/x\x7d\x7d"
  let f : Definition :=
    { name := Bytes.ofString "x", content := { kind := .text, value := .text (Bytes.ofString "1/2/ \n/") } }
  have hstrip : strip t = Bytes.ofString "a\n\x7b\x7bx\x7d\x7d\n1/2/ \n/\n\x7b\x7b/x\x7d\x7d" := by
    decide
  have hparse : Template.parse (strip t) =
      .ok { text := Bytes.ofString "a\n", sections := [.text ⟨0, 2⟩, .definition ⟨2, 22⟩ f] } := by
    rw [hstrip]
    decide +kernel
  obtain ⟨-, -, -, -, -, hblocks⟩ := strip_cuts_lines t
  rcases hblocks _ hparse ⟨2, 22⟩ f (by simp) with ⟨tag, hslice, hread⟩ | ⟨tag, s, body, -, -, hf, hbody⟩
  · have hrange : opener ++ tag ++ closer =
        opener ++ Bytes.ofString "x\x7d\x7d\n1/2/ \n/\n\x7b\x7b/x" ++ closer := by
      rw [← hslice, hstrip]
      decide
    rw [List.append_cancel_left (List.append_cancel_right hrange)] at hread
    exact absurd hread (by decide +kernel)
  · refine ⟨hstrip, ?_⟩
    have htext : Value.text (blockText body) = .text (Bytes.ofString "1/2/ \n/") :=
      (congrArg (·.content.value) hf).symm
    rwa [Value.text.inj htext] at hbody

end Stencil
