import Stencil.Proofs.Composition
import Stencil.Proofs.Evaluations
import Stencil.Proofs.Occurrences

/-!
# Text that is to be taken as it is

Any text can be written in a template: it is enough to put a backslash in front of each opener
(`escapeOpeners`), whatever else stands around it. Brace by brace and backslash by backslash, the run of
plain text that is read does not end before the source does (`splitText_escapeOpeners`), and it shows the
text that was written (`showText_escapeOpeners`). Comments aside, that is also what is rendered. The main
statement is `escapeOpeners_keeps_text`.
-/

namespace Stencil

open Ascii
open Piece (opener escapedOpener opensTag splitText showText)

/-! ## Escaping openers -/

/-- A text with a backslash in front of each opener, found from left to right and without overlap. -/
def escapeOpeners (text : Bytes) : Bytes := Bytes.replace opener escapedOpener text

theorem escapeOpeners_opener (s : Bytes) :
    escapeOpeners (opener ++ s) = backslash :: openBrace :: openBrace :: escapeOpeners s := rfl

theorem escapeOpeners_cons {b : UInt8} {s : Bytes} (h : ¬opensTag (b :: s)) :
    escapeOpeners (b :: s) = b :: escapeOpeners s := by
  show (if opensTag (b :: s) then _ else b :: escapeOpeners s) = b :: escapeOpeners s
  rw [if_neg h]

/-- Induction along a text, by openers as long as there is one in front and else by bytes. -/
@[elab_as_elim]
theorem opener_induction {motive : Bytes → Prop} (nil : motive [])
    (opener : ∀ s, motive s → motive (opener ++ s))
    (cons : ∀ b s, ¬opensTag (b :: s) → motive s → motive (b :: s)) (s : Bytes) : motive s := by
  induction hn : s.length using Nat.strong_induction_on generalizing s with
  | h n ih =>
    subst hn
    by_cases hopens : opensTag s
    · obtain ⟨t, rfl⟩ := List.isPrefixOf_iff_prefix.mp hopens
      have hlength : t.length < (Piece.opener ++ t).length := by
        rw [List.length_append]
        exact Nat.lt_add_of_pos_left (by decide)
      exact opener t (ih _ hlength t rfl)
    · cases s with
      | nil => exact nil
      | cons b s => exact cons b s hopens (ih _ (by simp) s rfl)

theorem opensTag_cons_iff {b : UInt8} {s : Bytes} :
    opensTag (b :: s) ↔ b = openBrace ∧ s.head? = some openBrace := by
  cases s <;> simp [opensTag, opener, @eq_comm _ openBrace]

/-- Escaping puts nothing but backslashes in front of what was there. -/
theorem head?_of_head?_escapeOpeners {s : Bytes} {c : UInt8} (hc : c ≠ backslash)
    (h : (escapeOpeners s).head? = some c) : s.head? = some c := by
  induction s using opener_induction with
  | nil => cases h
  | opener s _ =>
    rw [escapeOpeners_opener, List.head?_cons, Option.some_inj] at h
    exact absurd h.symm hc
  | cons b s hs _ => rwa [escapeOpeners_cons hs] at h

theorem not_opensTag_cons_escapeOpeners {b : UInt8} {s : Bytes} (h : ¬opensTag (b :: s)) :
    ¬opensTag (b :: escapeOpeners s) := by
  rw [opensTag_cons_iff] at h ⊢
  exact fun ⟨hb, hs⟩ => h ⟨hb, head?_of_head?_escapeOpeners (by decide) hs⟩

/-- No opener is left at the front. -/
theorem not_opensTag_escapeOpeners (s : Bytes) : ¬opensTag (escapeOpeners s) := by
  induction s using opener_induction with
  | nil => decide
  | opener s _ =>
    rw [escapeOpeners_opener, opensTag_cons_iff]
    exact fun h => absurd h.1 (by decide)
  | cons b s hs _ =>
    rw [escapeOpeners_cons hs]
    exact not_opensTag_cons_escapeOpeners hs

theorem sublist_escapeOpeners (s : Bytes) : s.Sublist (escapeOpeners s) := by
  induction s using opener_induction with
  | nil => exact .slnil
  | opener s ih => exact ((ih.cons_cons openBrace).cons_cons openBrace).cons backslash
  | cons b s hs ih =>
    rw [escapeOpeners_cons hs]
    exact ih.cons_cons b

/-! ## Reading escaped text -/

/-- A backslash that stands in the text hides nothing, because no opener is left behind it. -/
theorem splitText_escapeOpeners (s : Bytes) : splitText 0 (escapeOpeners s) = (escapeOpeners s, []) := by
  induction s using opener_induction with
  | nil => rfl
  | opener s ih =>
    have hnot : ¬opensTag (backslash :: openBrace :: openBrace :: escapeOpeners s) :=
      fun h => absurd (opensTag_cons_iff.mp h).1 (by decide)
    have hopens : opensTag (openBrace :: openBrace :: escapeOpeners s) := rfl
    rw [escapeOpeners_opener, splitText, if_neg hnot, if_pos ⟨rfl, hopens⟩]
    simp only [opener, List.length_cons, List.length_nil, splitText, ih]
  | cons b s hs ih =>
    rw [escapeOpeners_cons hs, splitText, if_neg (not_opensTag_cons_escapeOpeners hs),
      if_neg fun h => not_opensTag_escapeOpeners s h.2]
    simp only [ih]

theorem showText_escapeOpeners (s : Bytes) : showText 0 (escapeOpeners s) = s := by
  induction s using opener_induction with
  | nil => rfl
  | opener s ih =>
    have hopens : opensTag (openBrace :: openBrace :: escapeOpeners s) := rfl
    rw [escapeOpeners_opener, showText, if_pos ⟨rfl, hopens⟩]
    simp only [opener, List.length_cons, List.length_nil, showText, ih, List.cons_append, List.nil_append]
  | cons b s hs ih =>
    rw [escapeOpeners_cons hs, showText, if_neg fun h => not_opensTag_escapeOpeners s h.2, ih]

theorem escapeOpeners_ne_nil {s : Bytes} (h : s ≠ []) : escapeOpeners s ≠ [] := fun hnil =>
  h (List.sublist_nil.mp (hnil ▸ sublist_escapeOpeners s))

theorem parse_escapeOpeners {text : Bytes} (h : text ≠ []) :
    Template.parse (escapeOpeners text) =
      .ok { text, sections := [.text ⟨0, text.length⟩] } := by
  have hread := Piece.read_of_not_opensTag (not_opensTag_escapeOpeners text)
  rw [splitText_escapeOpeners] at hread
  rw [Template.parse_of_splits (.cons (escapeOpeners_ne_nil h) hread .nil)]
  simp [Template.layout, Template.sectionsFrom, Template.sectionAt, Piece.shown, showText_escapeOpeners]

/-! ## Comments -/

/-- A text without two slashes in a row has no comments. -/
theorem Comment.strip_eq_self {text : Bytes} (h : ¬[slash, slash] <:+: text) : strip text = text := by
  rw [strip]
  induction text with
  | nil => rfl
  | cons b text ih =>
    rw [List.infix_cons_iff, not_or] at h
    have hnot : ¬(b = slash ∧ text.head? = some slash) := by
      rintro ⟨rfl, hs⟩
      obtain ⟨t, rfl⟩ := List.head?_eq_some_iff.mp hs
      exact h.1 ⟨t, rfl⟩
    rw [stripFrom, if_neg hnot, ih h.2]

theorem slashes_infix_of_escapeOpeners {s : Bytes} (h : [slash, slash] <:+: escapeOpeners s) :
    [slash, slash] <:+: s := by
  induction s using opener_induction with
  | nil => exact h
  | opener s ih =>
    have hrest : [slash, slash] <:+: escapeOpeners s :=
      (Bytes.infix_append_cons (u := [backslash, openBrace]) (by decide) h).resolve_left (by decide)
    exact (ih hrest).trans (List.suffix_append opener s).isInfix
  | cons b s hs ih =>
    rw [escapeOpeners_cons hs] at h
    rcases List.infix_cons_iff.mp h with hprefix | hinfix
    · obtain ⟨rfl, t, ht⟩ := List.cons_prefix_cons.mp hprefix
      have hhead := head?_of_head?_escapeOpeners (s := s) (c := slash) (by decide) (by rw [← ht]; rfl)
      obtain ⟨t, rfl⟩ := List.head?_eq_some_iff.mp hhead
      exact ⟨[], t, rfl⟩
    · exact (ih hinfix).trans (List.suffix_cons b s).isInfix

/-! ## Rendering escaped text -/

theorem isBlank_of_sublist {s t : Bytes} (h : s.Sublist t) (ht : Bytes.isBlank t) : Bytes.isBlank s :=
  List.all_eq_true.mpr fun b hb => List.all_eq_true.mp ht b (h.subset hb)

namespace Session

variable {σ : Type} (s : Session σ)

/-- A document without definitions and slots is its text, normalized. -/
theorem renderDocumentWith_text (expand : Expander σ) (depth : Int) (env : Environment) (text : Bytes)
    (span : Span) (w : World σ) :
    s.renderDocumentWith expand depth env { text, sections := [.text span] } w =
      ⟨.ok (normalize text), w, [.step s.debug (.bound env.size depth)]⟩ := by
  have hslots : Document.slotsFromEnd { text, sections := [.text span] } = [] := List.mergeSort_nil
  rw [renderDocumentWith, hslots]
  rfl

theorem render_of_parse {env : Environment} (henv : ∀ name ∈ env, s.isFunction name = false)
    {depth : Int} (hdepth : depth ≤ s.limit) {source : Bytes} (hblank : Bytes.isBlank source = false)
    (hcomment : Comment.strip source = source) {d : Document} (hd : Template.parse source = .ok d) :
    s.render depth env source = (do
      s.note (.reading depth source)
      s.renderDocumentWith (s.render (depth + 1)) depth env d) := by
  have hnames := s.checkNames_of_forall henv depth
  rw [s.render_of_strip hnames hdepth hblank (hcomment.symm ▸ hd), hcomment]

end Session

/-- A text whose openers are escaped is read as this text and nothing else. Unless it is blank or could
have a comment, it is rendered as it is, normalized, and nothing happens on the way but that it is read. -/
theorem escapeOpeners_keeps_text {text : Bytes} (h : text ≠ []) :
    Template.parse (escapeOpeners text) = .ok { text, sections := [.text ⟨0, text.length⟩] } ∧
      (¬[slash, slash] <:+: text → Bytes.isBlank text = false →
        ∀ (σ : Type) (s : Session σ) (depth : Int) (env : Environment) (w : World σ),
          depth ≤ s.limit → (∀ name ∈ env, s.isFunction name = false) →
            s.render depth env (escapeOpeners text) w =
              ⟨.ok (normalize text), w,
                [.step s.debug (.reading depth (escapeOpeners text)),
                  .step s.debug (.bound env.size depth)]⟩) := by
  refine ⟨parse_escapeOpeners h, fun hslashes hblank σ s depth env w hdepth henv => ?_⟩
  have hcomment : Comment.strip (escapeOpeners text) = escapeOpeners text :=
    Comment.strip_eq_self fun hs => hslashes (slashes_infix_of_escapeOpeners hs)
  have hblank' : Bytes.isBlank (escapeOpeners text) = false := by
    refine Bool.eq_false_iff.mpr fun hb => ?_
    simp [isBlank_of_sublist (sublist_escapeOpeners text) hb] at hblank
  rw [s.render_of_parse henv hdepth hblank' hcomment (parse_escapeOpeners h)]
  show Action.bind _ _ w = _
  simp only [Action.bind, Session.note, Action.tell, s.renderDocumentWith_text]
  rfl

/-- A backslash in front of a run of five braces, which is two openers and a brace. -/
theorem escapeOpeners_keeps_text_of_braces :
    escapeOpeners (Bytes.ofString "\\\x7b\x7b\x7b\x7b\x7b") =
        Bytes.ofString "\\\\\x7b\x7b\\\x7b\x7b\x7b" ∧
      Template.parse (escapeOpeners (Bytes.ofString "\\\x7b\x7b\x7b\x7b\x7b")) =
        .ok { text := Bytes.ofString "\\\x7b\x7b\x7b\x7b\x7b", sections := [.text ⟨0, 6⟩] } ∧
      ∀ w : World Unit, Session.render {} 0 ∅
          (escapeOpeners (Bytes.ofString "\\\x7b\x7b\x7b\x7b\x7b")) w =
        ⟨.ok (Bytes.ofString "\\\x7b\x7b\x7b\x7b\x7b"), w,
          [.step true (.reading 0 (Bytes.ofString "\\\\\x7b\x7b\\\x7b\x7b\x7b")),
            .step true (.bound 0 0)]⟩ := by
  have hne : Bytes.ofString "\\\x7b\x7b\x7b\x7b\x7b" ≠ [] := by decide
  have hkeeps := escapeOpeners_keeps_text hne
  refine ⟨by decide, hkeeps.1, fun w => ?_⟩
  exact hkeeps.2 (by decide) (by decide) Unit {} 0 ∅ w (by decide) (by simp)

end Stencil
