import Stencil.Proofs.Blocks
import Stencil.Proofs.Idempotence
import Stencil.Proofs.SectionOrder

/-!
# Templates with one slot

A tag between two plain texts is read as a slot between these texts: the text in front is read up to the tag
(`splitText_plain`), and the one behind has no closing tag of a block (`splits_slot`). What takes the place
of the slot comes to stand between the two texts (`OneSlot.foldlM_fillSlot`), also where definitions stand in
front of them.
-/

namespace Stencil

open Ascii
open Piece (opener closer opensTag splitText showText)

/-! ## Plain text in front of a tag -/

/-- No tag begins in the text, also where one follows it, and none that follows is hidden by it. -/
structure IsPlainFront (a : Bytes) : Prop where
  opener : ¬opener <:+: a
  openBrace : a.getLast? ≠ some openBrace
  backslash : a.getLast? ≠ some backslash

namespace IsPlainFront

theorem nil : IsPlainFront [] where
  opener := by decide
  openBrace := by decide
  backslash := by decide

theorem tail {b : UInt8} {a : Bytes} (h : IsPlainFront (b :: a)) : IsPlainFront a where
  opener hoccurs := h.opener (hoccurs.trans (List.suffix_cons b a).isInfix)
  openBrace hlast := h.openBrace (by rw [List.getLast?_cons, hlast]; rfl)
  backslash hlast := h.backslash (by rw [List.getLast?_cons, hlast]; rfl)

theorem not_opensTag {a : Bytes} (h : IsPlainFront a) (ha : a ≠ []) (rest : Bytes) : ¬opensTag (a ++ rest) := by
  match a with
  | [b] =>
    rw [List.singleton_append, opensTag_cons_iff]
    rintro ⟨rfl, -⟩
    exact h.openBrace rfl
  | b :: c :: a =>
    rw [List.cons_append, opensTag_cons_iff]
    rintro ⟨rfl, hc⟩
    obtain rfl : c = Ascii.openBrace := by simpa using hc
    exact h.opener (List.prefix_append Piece.opener a).isInfix

theorem splitText_append {a rest : Bytes} (h : IsPlainFront a) (hrest : rest = [] ∨ opensTag rest) :
    splitText 0 (a ++ rest) = (a, rest) := by
  induction a with
  | nil =>
    rcases hrest with rfl | hrest
    · rfl
    · obtain ⟨c, t, rfl⟩ : ∃ c t, rest = c :: t := List.exists_cons_of_ne_nil (by rintro rfl; cases hrest)
      exact if_pos hrest
  | cons b a ih =>
    have hnot : ¬opensTag (b :: (a ++ rest)) := h.not_opensTag (List.cons_ne_nil b a) rest
    have hhidden : ¬(b = Ascii.backslash ∧ opensTag (a ++ rest)) := by
      rintro ⟨rfl, hopens⟩
      by_cases ha : a = []
      · subst ha
        exact h.backslash rfl
      · exact h.tail.not_opensTag ha rest hopens
    rw [List.cons_append, splitText, if_neg hnot, if_neg hhidden]
    simp only [ih h.tail]

end IsPlainFront

theorem showText_plain {a : Bytes} (h : ¬opener <:+: a) : showText 0 a = a := by
  have hshow := showText_escapeOpeners a
  rwa [escapeOpeners_eq_self h] at hshow

/-- The pieces of a plain text: one, unless the text is empty. -/
def textPieces (a : Bytes) : List Piece := if a.isEmpty then [] else [.text a]

/-- A body that the scanner gets over ends at the closing braces behind it. -/
theorem Spelling.Passes.splitTag {body : Bytes} (h : Passes body) (after : Bytes) :
    Piece.splitTag .outside (body ++ closer ++ after) = some (body, after) := by
  have hclosed : Piece.splitTag .outside (closer ++ after) = some ([], after) := by
    simp [Piece.splitTag, closer]
  have hbody := h _ _ _ hclosed
  rwa [List.append_nil, ← List.append_assoc] at hbody

namespace Template

theorem splits_plain {a rest : Bytes} (h : IsPlainFront a) (hrest : rest = [] ∨ opensTag rest)
    {ps : List Piece} (hps : Splits rest ps) : Splits (a ++ rest) (textPieces a ++ ps) := by
  by_cases ha : a = []
  · subst ha
    exact hps
  · have hread := Piece.read_of_not_opensTag (h.not_opensTag ha rest)
    rw [h.splitText_append hrest] at hread
    rw [textPieces, if_neg (by simpa using ha)]
    exact .cons (by simp [ha]) hread hps

theorem splits_of_plain {b : Bytes} (h : ¬opener <:+: b) : Splits b (textPieces b) := by
  by_cases hb : b = []
  · subst hb
    exact .nil
  · have hread := Piece.read_of_not_opensTag (not_opensTag_escapeOpeners b)
    rw [splitText_escapeOpeners, escapeOpeners_eq_self h] at hread
    rw [textPieces, if_neg (by simpa using hb)]
    exact .cons hb hread .nil

theorem opener_prefix_closingTag (name : Bytes) : opener <+: Piece.closingTag name :=
  ⟨slash :: (name ++ closer), by simp [Piece.closingTag]⟩

/-- The pieces of a slot between two texts. -/
def slotPieces (a tag : Bytes) (slot : Slot) (b : Bytes) : List Piece :=
  textPieces a ++ .slot tag slot :: textPieces b

/-- A tag is read as a slot, whatever stands behind it: no entry of it is a bare name. -/
structure IsSlotTag (body : Bytes) (slot : Slot) : Prop where
  passes : Spelling.Passes body
  read : Tag.read body = .ok (.slot slot)
  literals : ∀ p ∈ slot.params, p.required = false

theorem splits_slot {a body b : Bytes} {slot : Slot} (ha : IsPlainFront a) (h : IsSlotTag body slot)
    (hb : ¬opener <:+: b) :
    Splits (a ++ (opener ++ body ++ closer ++ b)) (slotPieces a (opener ++ body ++ closer) slot b) := by
  have hblock : Piece.splitBlock? slot b = none := by
    rw [Piece.splitBlock?]
    split
    · exact Bytes.splitAround?_eq_none_iff.mpr fun hclosing =>
        hb ((opener_prefix_closingTag slot.name).isInfix.trans hclosing)
    · rfl
  have hopens : opensTag (opener ++ body ++ closer ++ b) := by
    simp only [List.append_assoc]
    exact List.isPrefixOf_iff_prefix.mpr (List.prefix_append ..)
  have hread := (Piece.Reads.tag (h.passes.splitTag b) h.read (.slot hblock h.literals)).read_eq
  exact splits_plain ha (.inr hopens) (.cons (by simp [opener]) hread (splits_of_plain hb))

end Template

/-! ## The document of a slot between texts -/

/-- Among these sections there is this slot, and the others are plain text. -/
def Section.OneSlot (span : Span) (slot : Slot) (sections : List Section) : Prop :=
  ∃ front back, (∀ s ∈ front, s.isText) ∧ (∀ s ∈ back, s.isText) ∧
    sections = front ++ .slot span slot :: back

namespace Template

theorem flatMap_shown_textPieces {a : Bytes} (h : ¬opener <:+: a) :
    (textPieces a).flatMap Piece.shown = a := by
  by_cases ha : a = [] <;> simp [textPieces, ha, Piece.shown, showText_plain h]

theorem isText_sectionsFrom_textPieces (a : Bytes) (sourceAt textAt : Nat) :
    ∀ s ∈ sectionsFrom sourceAt textAt (textPieces a), s.isText := by
  by_cases ha : a = [] <;> simp [textPieces, ha, sectionsFrom, sectionAt, Section.isText]

theorem flatMap_shown_slotPieces {a b : Bytes} (ha : ¬opener <:+: a) (hb : ¬opener <:+: b) (tag : Bytes)
    (slot : Slot) : (slotPieces a tag slot b).flatMap Piece.shown = a ++ tag ++ b := by
  simp [slotPieces, flatMap_shown_textPieces ha, flatMap_shown_textPieces hb, Piece.shown]

theorem oneSlot_sectionsFrom {a : Bytes} (ha : ¬opener <:+: a) (tag : Bytes) (slot : Slot) (b : Bytes)
    (sourceAt : Nat) :
    Section.OneSlot ⟨a.length, a.length + tag.length⟩ slot
      (sectionsFrom sourceAt 0 (slotPieces a tag slot b)) := by
  refine ⟨_, _, isText_sectionsFrom_textPieces a sourceAt 0, isText_sectionsFrom_textPieces b
    (sourceAt + ((textPieces a).flatMap Piece.source).length + tag.length) (a.length + tag.length), ?_⟩
  rw [slotPieces, sectionsFrom_append, flatMap_shown_textPieces ha, Nat.zero_add]
  rfl

end Template

namespace Section.OneSlot

variable {span : Span} {slot : Slot} {sections : List Section}

theorem bind_eq (h : OneSlot span slot sections) (isFunction : Bytes → Bool) (env : Environment) :
    env.bind isFunction sections = .ok env := by
  have htext {texts : List Section} (htexts : ∀ s ∈ texts, s.isText) (rest : List Section) :
      env.bind isFunction (texts ++ rest) = env.bind isFunction rest := by
    induction texts with
    | nil => rfl
    | cons s texts ih =>
      rw [List.forall_mem_cons] at htexts
      cases s with
      | text span => exact ih htexts.2
      | _ => cases htexts.1
  obtain ⟨front, back, hfront, hback, rfl⟩ := h
  rw [htext hfront]
  show env.bind isFunction back = .ok env
  rw [← List.append_nil back, htext hback]
  rfl

theorem slots_eq (h : OneSlot span slot sections) (text : Bytes) :
    Document.slots { text, sections } = [(span, slot)] := by
  have htext {texts : List Section} (htexts : ∀ s ∈ texts, s.isText) :
      Document.slots { text, sections := texts } = [] := by
    refine List.filterMap_eq_nil_iff.mpr fun s hs => ?_
    have hs := htexts s hs
    cases s <;> first | rfl | cases hs
  obtain ⟨front, back, hfront, hback, rfl⟩ := h
  have hfront := htext hfront
  have hback := htext hback
  unfold Document.slots at *
  rw [List.filterMap_append, hfront, List.filterMap_cons, hback]
  rfl

end Section.OneSlot

/-- All that the document shows is this slot, between two texts. -/
structure Document.ShowsSlot (d : Document) (a tag : Bytes) (slot : Slot) (b : Bytes) : Prop where
  text : d.text = a ++ tag ++ b
  slots : d.slots = [(⟨a.length, a.length + tag.length⟩, slot)]

namespace Template

variable {a b : Bytes} (ha : ¬opener <:+: a) (hb : ¬opener <:+: b) (tag : Bytes) (slot : Slot)
include ha hb

theorem showsSlot_layout : (layout (slotPieces a tag slot b)).ShowsSlot a tag slot b where
  text := flatMap_shown_slotPieces ha hb tag slot
  slots := (oneSlot_sectionsFrom ha tag slot b 0).slots_eq _

/-- A definition in front shows nothing. -/
theorem showsSlot_layout_definition (source : Bytes) (f : Definition) :
    (layout (.definition source f :: slotPieces a tag slot b)).ShowsSlot a tag slot b where
  text := flatMap_shown_slotPieces ha hb tag slot
  slots := (oneSlot_sectionsFrom ha tag slot b (0 + source.length)).slots_eq []

omit hb in
theorem bind_layout (isFunction : Bytes → Bool) (env : Environment) :
    env.bind isFunction (layout (slotPieces a tag slot b)).sections = .ok env :=
  (oneSlot_sectionsFrom ha tag slot b 0).bind_eq isFunction env

omit hb in
theorem bind_layout_definition {isFunction : Bytes → Bool} {env : Environment} (source : Bytes)
    {f : Definition} (hname : isFunction f.name = false) (hfree : f.name ∉ env) :
    env.bind isFunction (layout (.definition source f :: slotPieces a tag slot b)).sections =
      .ok (env.insert f.name f.variable) :=
  Environment.bind_cons_eq_ok_iff.mpr ⟨Environment.conflict?_definition_eq_none_iff.mpr ⟨hname, hfree⟩,
    (oneSlot_sectionsFrom ha tag slot b (0 + source.length)).bind_eq isFunction _⟩

end Template

/-! ## Filling the slot in -/

namespace Session

variable {σ : Type} (s : Session σ) {depth : Int} {env scope : Environment} {a tag b : Bytes} {slot : Slot}

theorem referent?_of_getElem? {v : Variable} (h : scope[slot.name]? = some v) :
    s.referent? scope slot = some v := by
  rw [referent?, h]

/-- The value of the slot comes to stand between the two texts. -/
theorem renderDocumentWith_slot (expand : Expander σ) {d : Document} (h : d.ShowsSlot a tag slot b)
    (hbind : env.bind s.isFunction d.sections = .ok scope) :
    s.renderDocumentWith expand depth env d = do
      s.note (.bound scope.size depth)
      let bytes? ← s.substitute? expand scope slot
      return normalize (a ++ bytes?.getD tag ++ b) := by
  have hone : d.slotsFromEnd = [(⟨a.length, a.length + tag.length⟩, slot)] := by
    rw [Document.slotsFromEnd, h.slots, List.mergeSort_singleton]
  have hlength : d.text.length = a.length + tag.length + b.length := by
    rw [h.text, List.length_append, List.length_append]
  have hfill := @fillSlot_take σ s expand scope d.text (⟨a.length, a.length + tag.length⟩, slot)
    d.text.length (Nat.le_add_right ..) (hlength ▸ Nat.le_add_right ..) (Nat.le_refl _) []
  have htake : d.text.take a.length = a := by rw [h.text, List.append_assoc, List.take_left]
  have hslice : Span.slice ⟨a.length, a.length + tag.length⟩ d.text = tag :=
    Span.slice_of_append (h.text.trans (List.append_assoc ..)) rfl rfl
  have htext : d.text = (a ++ tag) ++ (b ++ []) := by rw [h.text, List.append_nil]
  have hrest : Span.slice ⟨a.length + tag.length, d.text.length⟩ d.text = b :=
    Span.slice_of_append htext (List.length_append ..).symm (by rw [List.length_append, hlength])
  rw [List.take_length, List.append_nil] at hfill
  rw [s.renderDocumentWith_of_bind expand depth hbind, hone, List.foldlM_cons, hfill]
  simp only [hslice, hrest, htake, List.append_nil, List.foldlM_nil, bind_assoc, pure_bind, List.append_assoc]

/-- A template that has an opening brace is not blank, and one without two slashes in a row has no
comments. -/
theorem render_of_showsSlot (hcheck : s.checkNames depth env = pure ()) (hdepth : depth ≤ s.limit)
    {template : Bytes} (hbrace : openBrace ∈ template) (hslashes : ¬[slash, slash] <:+: template)
    {ps : List Piece} (hps : Template.Splits template ps) (h : (Template.layout ps).ShowsSlot a tag slot b)
    (hbind : env.bind s.isFunction (Template.layout ps).sections = .ok scope) :
    s.render depth env template = do
      s.note (.reading depth template)
      s.note (.bound scope.size depth)
      let bytes? ← s.substitute? (s.render (depth + 1)) scope slot
      return normalize (a ++ bytes?.getD tag ++ b) := by
  have hblank : Bytes.isBlank template = false := Bool.eq_false_iff.mpr fun hblank =>
    absurd (List.all_eq_true.mp hblank openBrace hbrace) (by decide)
  have hstrip := Comment.strip_eq_self hslashes
  have hparse := Template.parse_of_splits hps
  rw [s.render_of_strip hcheck hdepth hblank (hstrip.symm ▸ hparse), hstrip,
    s.renderDocumentWith_slot _ h hbind]

end Session

end Stencil
