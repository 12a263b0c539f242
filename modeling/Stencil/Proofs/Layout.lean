import Mathlib.Data.List.Chain
import Mathlib.Data.List.Forall2
import Stencil.Proofs.PlainText
import Stencil.Proofs.Ranges

/-!
# Pieces and sections

A source that can be read splits into pieces (`Splits`), and each piece has the shape of its kind
(`Piece.WellFormed`). Laying the pieces out keeps two places in step, one in the source and one in
the text: the pieces tile the source (`tiles_sourceSpans`), what they show tiles the text
(`tiles_shownSpans`), and each section stands for its piece (`forall₂_readFrom`). The main statement,
`parse_lossless`, says that a parsed document accounts for every byte of its source (`Lossless`).
-/

namespace Stencil

open Piece (opener closer escapedOpener opensTag)

/-! ## The pieces of a source -/

namespace Template

theorem pieces_nil : pieces [] = .ok [] := by
  rw [pieces, dif_pos rfl]

theorem pieces_of_error {s : Bytes} {fault : Fault} (hs : s ≠ []) (hr : Piece.read s = .error fault) :
    pieces s = .error fault := by
  rw [pieces, dif_neg hs]
  split <;> simp_all

theorem pieces_of_ok {s rest : Bytes} {p : Piece} (hs : s ≠ []) (hr : Piece.read s = .ok (p, rest)) :
    pieces s = do return p :: (← pieces rest) := by
  rw [pieces, dif_neg hs]
  split <;> simp_all

/-- Reading a source piece by piece, up to its end, gives these pieces. -/
inductive Splits : Bytes → List Piece → Prop
  | nil : Splits [] []
  | cons {s rest : Bytes} {p : Piece} {ps : List Piece} (hs : s ≠ [])
      (hr : Piece.read s = .ok (p, rest)) (hps : Splits rest ps) : Splits s (p :: ps)

theorem splits_of_pieces {s : Bytes} {ps : List Piece} (h : pieces s = .ok ps) : Splits s ps := by
  induction s using pieces.induct generalizing ps with
  | case1 =>
    rw [pieces_nil, Except.ok.injEq] at h
    exact h ▸ .nil
  | case2 s hs fault hr =>
    rw [pieces_of_error hs hr] at h
    cases h
  | case3 s hs p rest hr ih =>
    rw [pieces_of_ok hs hr] at h
    obtain ⟨more, hmore, he⟩ := Fault.bind_eq_ok.mp h
    obtain rfl : p :: more = ps := by simpa [pure, Except.pure] using he
    exact .cons hs hr (ih hmore)

/-- These pieces are read off the front of a source, and leave the rest. -/
inductive ReadsOff : Bytes → List Piece → (rest : Bytes) → Prop
  | nil (s : Bytes) : ReadsOff s [] s
  | cons {s rest last : Bytes} {p : Piece} {ps : List Piece} (hs : s ≠ [])
      (hr : Piece.read s = .ok (p, rest)) (hps : ReadsOff rest ps last) : ReadsOff s (p :: ps) last

/-- A source that cannot be read has a first piece that cannot be read. -/
theorem exists_readsOff_of_pieces_eq_error {s : Bytes} {fault : Fault} (h : pieces s = .error fault) :
    ∃ ps rest, ReadsOff s ps rest ∧ rest ≠ [] ∧ Piece.read rest = .error fault := by
  induction s using pieces.induct with
  | case1 =>
    rw [pieces_nil] at h
    cases h
  | case2 s hs fault' hr =>
    rw [pieces_of_error hs hr] at h
    cases h
    exact ⟨[], s, .nil s, hs, hr⟩
  | case3 s hs p rest hr ih =>
    rw [pieces_of_ok hs hr] at h
    rcases Fault.bind_eq_error.mp h with hrest | ⟨_, _, hok⟩
    · obtain ⟨ps, last, hps, hlast⟩ := ih hrest
      exact ⟨p :: ps, last, .cons hs hr hps, hlast⟩
    · cases hok

theorem parse_eq_ok {source : Bytes} {d : Document} (h : parse source = .ok d) :
    ∃ ps, Splits source ps ∧ layout ps = d := by
  unfold parse at h
  split at h
  · rename_i ps hps
    exact ⟨ps, splits_of_pieces hps, by simpa using h⟩
  · cases h

theorem parse_eq_error {source : Bytes} {failure : Failure} (h : parse source = .error failure) :
    ∃ fault, pieces source = .error fault ∧ failure = fault.failure source.length := by
  unfold parse at h
  split at h
  · cases h
  · rename_i fault hpieces
    exact ⟨fault, hpieces, (Except.error.inj h).symm⟩

theorem Splits.flatMap_source {s : Bytes} {ps : List Piece} (h : Splits s ps) :
    ps.flatMap Piece.source = s := by
  induction h with
  | nil => rfl
  | cons hs hr _ ih => rw [List.flatMap_cons, ih, Piece.source_append_of_read hr]

end Template

/-! ## The shape of a piece -/

namespace Piece

/-- Is this a run of plain text? -/
def isText : Piece → Bool
  | text _ => true
  | _ => false

/-- A run of plain text is not empty, and neither is a definition; a slot is all that stands between
its braces, and the braces. -/
def WellFormed : Piece → Prop
  | text source => source ≠ []
  | definition source _ => source ≠ []
  | slot source _ => ∃ body, source = opener ++ body ++ closer

theorem ofTag_wellFormed {body after rest : Bytes} {t : Tag} {p : Piece}
    (h : ofTag (opener ++ body ++ closer) after t = .ok (p, rest)) :
    p.WellFormed ∧ p.isText = false := by
  obtain ⟨more, hsource, -⟩ := source_of_ofTag h
  cases p with
  | text source =>
    cases t with
    | definition d => cases h
    | slot s =>
      simp only [ofTag] at h
      split at h
      · cases h
      · obtain ⟨-, -, hp⟩ := Fault.bind_eq_ok.mp h
        cases hp
  | definition source d =>
    refine ⟨?_, rfl⟩
    rw [WellFormed, show source = _ from hsource]
    simp [opener]
  | slot source s =>
    cases t with
    | definition d => cases h
    | slot s' =>
      simp only [ofTag] at h
      split at h
      · cases h
      · obtain ⟨-, -, hp⟩ := Fault.bind_eq_ok.mp h
        cases hp
        exact ⟨⟨body, rfl⟩, rfl⟩

theorem readTag_wellFormed {s rest : Bytes} {p : Piece} (h : readTag s = .ok (p, rest)) :
    p.WellFormed ∧ p.isText = false := by
  unfold readTag at h
  split at h
  · cases h
  · split at h
    · cases h
    · exact ofTag_wellFormed h

theorem read_of_opensTag {s : Bytes} (h : opensTag s) : read s = readTag (s.drop opener.length) := by
  rw [read, if_pos h]

theorem read_of_not_opensTag {s : Bytes} (h : ¬opensTag s) :
    read s = .ok (.text (splitText 0 s).1, (splitText 0 s).2) := by
  rw [read, if_neg h]

theorem read_wellFormed {s rest : Bytes} {p : Piece} (hs : s ≠ []) (h : read s = .ok (p, rest)) :
    p.WellFormed := by
  by_cases ho : opensTag s
  · rw [read_of_opensTag ho] at h
    exact (readTag_wellFormed h).1
  · have hne := source_ne_nil_of_read hs h
    rw [read_of_not_opensTag ho] at h
    cases h
    exact hne

/-- Behind a run of plain text a tag begins, or the source ends. -/
theorem opensTag_of_read_text {s rest : Bytes} {p : Piece} (h : read s = .ok (p, rest))
    (hp : p.isText) : rest = [] ∨ opensTag rest := by
  by_cases ho : opensTag s
  · rw [read_of_opensTag ho] at h
    rw [(readTag_wellFormed h).2] at hp
    cases hp
  · rw [read_of_not_opensTag ho] at h
    cases h
    exact opensTag_of_splitText 0 s

theorem isText_of_opensTag {s rest : Bytes} {p : Piece} (ho : opensTag s)
    (h : read s = .ok (p, rest)) : p.isText = false := by
  rw [read_of_opensTag ho] at h
  exact (readTag_wellFormed h).2

end Piece

/-! ## Sections and their pieces -/

namespace Section

/-- The range of the text that a section shows. A definition shows nothing. -/
def shownSpan? : Section → Option Span
  | .text span | .slot span _ => some span
  | .definition _ _ | .unknown _ _ => none

/-- Is this a stretch of plain text? -/
def isText : Section → Bool
  | .text _ => true
  | _ => false

/-- What a section has to do with the piece of the source it was read from, a range of that source: a
definition stands in the source itself, and what a text or a slot stands for is in the text, the slot
as it was written and the text without the backslashes of its escaped openers. -/
def ReadFrom (source text : Bytes) (s : Section) (piece : Span) : Prop :=
  match s with
  | .definition span _ => span = piece
  | .slot span _ =>
    piece.slice source = span.slice text ∧ ∃ body, piece.slice source = opener ++ body ++ closer
  | .text span =>
    Bytes.replace escapedOpener opener (piece.slice source) = span.slice text ∧ span.slice text ≠ []
  | .unknown _ _ => False

end Section

namespace Template

/-- The ranges of the source that a row of pieces was read from, from a place on. -/
def sourceSpans (sourceAt : Nat) : List Piece → List Span
  | [] => []
  | p :: ps =>
    ⟨sourceAt, sourceAt + p.source.length⟩ :: sourceSpans (sourceAt + p.source.length) ps

theorem tiles_sourceSpans (sourceAt : Nat) (ps : List Piece) :
    Tiles sourceAt (sourceSpans sourceAt ps) (sourceAt + (ps.flatMap Piece.source).length) := by
  induction ps generalizing sourceAt with
  | nil => rfl
  | cons p ps ih =>
    refine ⟨rfl, Nat.le_add_right .., ?_⟩
    rw [List.flatMap_cons, List.length_append, ← Nat.add_assoc]
    exact ih _

theorem nonempty_sourceSpans {ps : List Piece} (h : ∀ p ∈ ps, p.source ≠ []) (sourceAt : Nat) :
    ∀ span ∈ sourceSpans sourceAt ps, span.start < span.stop := by
  induction ps generalizing sourceAt with
  | nil => simp [sourceSpans]
  | cons p ps ih =>
    have hp := List.length_pos_iff.mpr (h p (List.mem_cons_self ..))
    intro span hspan
    rcases List.mem_cons.mp hspan with rfl | hspan
    · show sourceAt < sourceAt + p.source.length
      omega
    · exact ih (fun q hq => h q (List.mem_cons_of_mem _ hq)) _ span hspan

/-- What the pieces show follows one another in the text. -/
theorem tiles_shownSpans (sourceAt textAt : Nat) (ps : List Piece) :
    Tiles textAt ((sectionsFrom sourceAt textAt ps).filterMap Section.shownSpan?)
      (textAt + (ps.flatMap Piece.shown).length) := by
  induction ps generalizing sourceAt textAt with
  | nil => rfl
  | cons p ps ih =>
    have hrest := ih (sourceAt + p.source.length) (textAt + p.shown.length)
    rw [Nat.add_assoc, ← List.length_append, ← List.flatMap_cons] at hrest
    cases p with
    | definition source d => exact hrest
    | text source => exact ⟨rfl, Nat.le_add_right .., hrest⟩
    | slot source s => exact ⟨rfl, Nat.le_add_right .., hrest⟩

/-- A section has to do with its piece what its kind asks for, wherever the two stand. -/
theorem sectionAt_readFrom {p : Piece} (hp : p.WellFormed) {source text before after shown more : Bytes}
    (hs : source = before ++ (p.source ++ after)) (ht : text = shown ++ (p.shown ++ more)) :
    Section.ReadFrom source text (sectionAt before.length shown.length p)
      ⟨before.length, before.length + p.source.length⟩ := by
  have hsource : Span.slice ⟨before.length, before.length + p.source.length⟩ source = p.source :=
    Span.slice_of_append hs rfl rfl
  have hshown : Span.slice ⟨shown.length, shown.length + p.shown.length⟩ text = p.shown :=
    Span.slice_of_append ht rfl rfl
  cases p with
  | definition src d => rfl
  | slot src s =>
    obtain ⟨body, hbody⟩ := hp
    exact ⟨hsource.trans hshown.symm, body, hsource.trans hbody⟩
  | text src =>
    refine ⟨?_, ?_⟩
    · rw [hsource, hshown, Piece.source, ← Piece.showText_eq_replace, Piece.shown]
    · rw [hshown]
      exact Piece.showText_ne_nil hp

theorem forall₂_readFrom {ps : List Piece} (h : ∀ p ∈ ps, p.WellFormed) {source text : Bytes}
    (before shown : Bytes) (hs : source = before ++ ps.flatMap Piece.source)
    (ht : text = shown ++ ps.flatMap Piece.shown) :
    List.Forall₂ (Section.ReadFrom source text) (sectionsFrom before.length shown.length ps)
      (sourceSpans before.length ps) := by
  induction ps generalizing before shown with
  | nil => exact .nil
  | cons p ps ih =>
    rw [List.flatMap_cons] at hs ht
    refine .cons (sectionAt_readFrom (h p (List.mem_cons_self ..)) hs ht) ?_
    rw [← List.length_append, ← List.length_append]
    exact ih (fun q hq => h q (List.mem_cons_of_mem _ hq)) (before ++ p.source) (shown ++ p.shown)
      (by rw [hs, List.append_assoc]) (by rw [ht, List.append_assoc])

theorem Splits.wellFormed {s : Bytes} {ps : List Piece} (h : Splits s ps) :
    ∀ p ∈ ps, p.WellFormed ∧ p.source ≠ [] := by
  induction h with
  | nil => simp
  | cons hs hr _ ih =>
    rw [List.forall_mem_cons]
    exact ⟨⟨Piece.read_wellFormed hs hr, Piece.source_ne_nil_of_read hs hr⟩, ih⟩

theorem Splits.isChain {s : Bytes} {ps : List Piece} (h : Splits s ps) :
    ps.IsChain fun a b => ¬(a.isText ∧ b.isText) := by
  induction h with
  | nil => exact .nil
  | cons hs hr hps ih =>
    cases hps with
    | nil => exact .singleton _
    | cons hs' hr' hps' =>
      refine .cons_cons (fun ⟨ha, hb⟩ => ?_) ih
      rcases Piece.opensTag_of_read_text hr ha with hnil | ho
      · exact hs' hnil
      · rw [Piece.isText_of_opensTag ho hr'] at hb
        cases hb

theorem isText_sectionAt (sourceAt textAt : Nat) (p : Piece) :
    (sectionAt sourceAt textAt p).isText = p.isText := by
  cases p <;> rfl

theorem isChain_sectionsFrom {ps : List Piece} (h : ps.IsChain fun a b => ¬(a.isText ∧ b.isText))
    (sourceAt textAt : Nat) :
    (sectionsFrom sourceAt textAt ps).IsChain fun a b => ¬(a.isText ∧ b.isText) := by
  induction h generalizing sourceAt textAt with
  | nil => exact .nil
  | singleton p => exact .singleton _
  | cons_cons hr _ ih =>
    refine .cons_cons ?_ (ih _ _)
    rwa [isText_sectionAt, isText_sectionAt]

end Template

/-! ## Parsing loses nothing -/

/-- A document accounts for every byte of a source, which splits into these pieces: there is one for
each section, in the order of the sections. -/
structure Lossless (source : Bytes) (d : Document) (pieces : List Span) : Prop where
  pieces_tile : Tiles 0 pieces source.length
  pieces_nonempty : ∀ piece ∈ pieces, piece.start < piece.stop
  sections_read : List.Forall₂ (Section.ReadFrom source d.text) d.sections pieces
  /-- Texts and slots fill the text, so that definitions leave nothing in it. -/
  shown_tile : Tiles 0 (d.sections.filterMap Section.shownSpan?) d.text.length
  texts_apart : d.sections.IsChain fun a b => ¬(a.isText ∧ b.isText)

namespace Template

theorem Splits.lossless {source : Bytes} {ps : List Piece} (h : Splits source ps) :
    Lossless source (layout ps) (sourceSpans 0 ps) where
  pieces_tile := by
    have htiles := tiles_sourceSpans 0 ps
    rwa [h.flatMap_source, Nat.zero_add] at htiles
  pieces_nonempty := nonempty_sourceSpans (fun p hp => (h.wellFormed p hp).2) 0
  sections_read :=
    forall₂_readFrom (fun p hp => (h.wellFormed p hp).1) [] [] h.flatMap_source.symm rfl
  shown_tile := by
    have htiles := tiles_shownSpans 0 0 ps
    rwa [Nat.zero_add] at htiles
  texts_apart := isChain_sectionsFrom h.isChain 0 0

/-- Whatever can be parsed is kept: the document accounts for every byte of its source. -/
theorem parse_lossless {source : Bytes} {d : Document} (h : parse source = .ok d) :
    ∃ pieces, Lossless source d pieces := by
  obtain ⟨ps, hps, rfl⟩ := parse_eq_ok h
  exact ⟨_, hps.lossless⟩

/-- A definition, an escaped opener and a slot, side by side. -/
theorem parse_lossless_of_each_kind :
    parse (Bytes.ofString "\x7b\x7ba=1\x7d\x7d\\\x7b\x7b\x7b\x7ba\x7d\x7d") =
        .ok
          { text := Bytes.ofString "\x7b\x7b\x7b\x7ba\x7d\x7d",
            sections :=
              [.definition ⟨0, 7⟩
                  { name := Bytes.ofString "a"
                    content := { kind := .number, value := .number ⟨0x3ff0000000000000⟩ } },
                .text ⟨0, 2⟩, .slot ⟨2, 7⟩ { name := Bytes.ofString "a" }] } ∧
      ∃ pieces,
        Lossless (Bytes.ofString "\x7b\x7ba=1\x7d\x7d\\\x7b\x7b\x7b\x7ba\x7d\x7d")
          { text := Bytes.ofString "\x7b\x7b\x7b\x7ba\x7d\x7d",
            sections :=
              [.definition ⟨0, 7⟩
                  { name := Bytes.ofString "a"
                    content := { kind := .number, value := .number ⟨0x3ff0000000000000⟩ } },
                .text ⟨0, 2⟩, .slot ⟨2, 7⟩ { name := Bytes.ofString "a" }] }
          pieces :=
  ⟨by decide +kernel, parse_lossless (by decide +kernel)⟩

end Template

end Stencil
