import Stencil.Proofs.FaultPlaces
import Stencil.Proofs.Locality

/-!
# Sources put together

A source can be cut in front of any of its pieces: both parts can be read on their own, and the document
of the whole is the one followed by the other (`Document.append`), because the pieces in front of the cut
stay the same without what follows (`ReadsOff.splits`). A source that cannot be read fails at its first
bad tag: what stands in front of the tag can be read, and from there on the source fails in the same way
on its own. Which ranges of a source its pieces are follows from its document (`Lossless.unique`). The
main statement is `parse_composes`.
-/

namespace Stencil

open Piece (opensTag opener)

/-! ## Pieces off the front of a source -/

namespace Piece

/-- Each piece but plain text begins with two opening braces. -/
theorem opensTag_source {s rest : Bytes} {p : Piece} (h : read s = .ok (p, rest))
    (hp : p.isText = false) : opensTag p.source := by
  by_cases ho : opensTag s
  · rw [read_of_opensTag ho] at h
    obtain ⟨more, hsource, -⟩ := source_of_readTag h
    exact List.isPrefixOf_iff_prefix.mpr (hsource ▸ List.prefix_append opener more)
  · rw [read_of_not_opensTag ho] at h
    obtain ⟨rfl, -⟩ : _ = p ∧ _ = rest := by simpa using h
    cases hp

end Piece

namespace Template

theorem ReadsOff.flatMap_source {s last : Bytes} {ps : List Piece} (h : ReadsOff s ps last) :
    ps.flatMap Piece.source ++ last = s := by
  induction h with
  | nil s => rfl
  | cons hs hr _ ih => rw [List.flatMap_cons, List.append_assoc, ih, Piece.source_append_of_read hr]

theorem Splits.exists_readsOff {s : Bytes} {front back : List Piece} (h : Splits s (front ++ back)) :
    ∃ rest, ReadsOff s front rest ∧ Splits rest back := by
  induction front generalizing s with
  | nil => exact ⟨s, .nil s, h⟩
  | cons p front ih =>
    cases h with
    | cons hs hr hps =>
      obtain ⟨rest, hfront, hback⟩ := ih hps
      exact ⟨rest, .cons hs hr hfront, hback⟩

/-- Behind a run of plain text nothing is left, or a tag. -/
theorem ReadsOff.opensTag_of_text {s rest last : Bytes} {p : Piece} {ps : List Piece}
    (hr : Piece.read s = .ok (p, rest)) (hp : p.isText) (h : ReadsOff rest ps last) :
    ps.flatMap Piece.source = [] ∨ opensTag (ps.flatMap Piece.source) := by
  cases h with
  | nil => exact .inl rfl
  | cons hs hr' hps =>
    have ho := (Piece.opensTag_of_read_text hr hp).resolve_left hs
    have hsource := Piece.opensTag_source hr' (Piece.isText_of_opensTag ho hr')
    exact .inr (Piece.opensTag_of_isPrefix (List.flatMap_cons ▸ List.prefix_append ..) hsource)

/-- The pieces that were read off the front of a source are the pieces of that part of it. -/
theorem ReadsOff.splits {s last : Bytes} {ps : List Piece} (h : ReadsOff s ps last) :
    Splits (ps.flatMap Piece.source) ps := by
  induction h with
  | nil s => exact .nil
  | cons hs hr hps ih =>
    rename_i s rest last p ps
    have hreads := Piece.read_eq_ok hr
    rw [← hps.flatMap_source] at hreads
    have hcut := (hreads.cut fun hp => hps.opensTag_of_text hr hp).read_eq
    have hne : p.source ++ ps.flatMap Piece.source ≠ [] :=
      List.append_ne_nil_of_left_ne_nil (Piece.source_ne_nil_of_read hs hr) _
    rw [List.flatMap_cons]
    exact .cons hne hcut ih

theorem pieces_of_splits {s : Bytes} {ps : List Piece} (h : Splits s ps) : pieces s = .ok ps := by
  induction h with
  | nil => exact pieces_nil
  | cons hs hr _ ih => rw [pieces_of_ok hs hr, ih]; rfl

theorem parse_of_splits {s : Bytes} {ps : List Piece} (h : Splits s ps) :
    parse s = .ok (layout ps) := by
  rw [parse, pieces_of_splits h]

end Template

/-! ## Documents one behind the other -/

/-- The same range of a text in front of which so many bytes were put. -/
def Span.shift (n : Nat) (span : Span) : Span := ⟨n + span.start, n + span.stop⟩

/-- The same section behind so many bytes of the source and so many of the text. -/
def Section.shift (source text : Nat) : Section → Section
  | .text span => .text (span.shift text)
  | .definition span d => .definition (span.shift source) d
  | .slot span s => .slot (span.shift text) s
  | .unknown code name => .unknown code name

/-- The document of two sources of which the first has so many bytes. -/
def Document.append (front : Document) (length : Nat) (back : Document) : Document where
  text := front.text ++ back.text
  sections := front.sections ++ back.sections.map (Section.shift length front.text.length)

namespace Template

theorem sectionsFrom_add (source text sourceAt textAt : Nat) (ps : List Piece) :
    sectionsFrom (source + sourceAt) (text + textAt) ps =
      (sectionsFrom sourceAt textAt ps).map (Section.shift source text) := by
  induction ps generalizing sourceAt textAt with
  | nil => rfl
  | cons p ps ih =>
    have hfirst : sectionAt (source + sourceAt) (text + textAt) p =
        (sectionAt sourceAt textAt p).shift source text := by
      cases p <;> simp [sectionAt, Section.shift, Span.shift, Nat.add_assoc]
    rw [sectionsFrom, sectionsFrom, List.map_cons, hfirst, Nat.add_assoc, Nat.add_assoc, ih]

theorem sectionsFrom_append (sourceAt textAt : Nat) (ps qs : List Piece) :
    sectionsFrom sourceAt textAt (ps ++ qs) =
      sectionsFrom sourceAt textAt ps ++
        sectionsFrom (sourceAt + (ps.flatMap Piece.source).length)
          (textAt + (ps.flatMap Piece.shown).length) qs := by
  induction ps generalizing sourceAt textAt with
  | nil => rfl
  | cons p ps ih =>
    simp only [List.cons_append, sectionsFrom, ih, List.flatMap_cons, List.length_append, Nat.add_assoc]

theorem layout_append (ps qs : List Piece) :
    layout (ps ++ qs) = (layout ps).append (ps.flatMap Piece.source).length (layout qs) := by
  have hsections := sectionsFrom_add (ps.flatMap Piece.source).length (ps.flatMap Piece.shown).length 0 0 qs
  simp only [Nat.add_zero] at hsections
  simp only [layout, Document.append, List.flatMap_append, sectionsFrom_append, Nat.zero_add, hsections]

end Template

/-! ## The pieces of a document -/

/-- Text that shows the same as a part of it from the front on is that part. -/
theorem Piece.eq_of_showText_eq {n : Nat} {a b : Bytes} (h : a <+: b)
    (hshow : showText n a = showText n b) : a = b := by
  induction b generalizing n a with
  | nil => exact List.prefix_nil.mp h
  | cons c b ih =>
    cases a with
    | nil => exact absurd hshow.symm (showText_ne_nil (List.cons_ne_nil c b))
    | cons c' a =>
      obtain ⟨rfl, hprefix⟩ := List.cons_prefix_cons.mp h
      cases n with
      | succ n => exact congrArg (c' :: ·) (ih hprefix (List.cons.inj hshow).2)
      | zero =>
        rw [showText, showText] at hshow
        by_cases hb : c' = Ascii.backslash ∧ opensTag b
        · by_cases ha : c' = Ascii.backslash ∧ opensTag a
          · rw [if_pos ha, if_pos hb] at hshow
            exact congrArg (c' :: ·) (ih hprefix hshow)
          · -- The whole text shows an opener here, and the part a backslash.
            rw [if_neg ha, if_pos hb, hb.1] at hshow
            obtain ⟨t, rfl⟩ := List.isPrefixOf_iff_prefix.mp hb.2
            exact absurd (List.cons.inj hshow).1 (by decide)
        · have ha : ¬(c' = Ascii.backslash ∧ opensTag a) := fun ha =>
            hb ⟨ha.1, opensTag_of_isPrefix hprefix ha.2⟩
          rw [if_neg ha, if_neg hb] at hshow
          exact congrArg (c' :: ·) (ih hprefix (List.cons.inj hshow).2)

/-- Ranges that start in one place have one of them in front of the other in a text. -/
theorem Span.slice_prefix {a b : Span} (hstart : a.start = b.start) (hle : a.stop ≤ b.stop)
    (text : Bytes) : a.slice text <+: b.slice text := by
  rw [slice, slice, List.drop_take, List.drop_take, hstart]
  exact List.take_prefix_take_left (by omega)

theorem Span.length_slice {span : Span} {text : Bytes} (h : span.stop ≤ text.length) :
    (span.slice text).length = span.stop - span.start := by
  rw [slice, List.length_drop, List.length_take, Nat.min_eq_left h]

/-- A section was read from one piece only, given where the piece starts. -/
theorem Section.ReadFrom.unique {source text : Bytes} {s : Section} {a b : Span}
    (ha : s.ReadFrom source text a) (hb : s.ReadFrom source text b) (hstart : a.start = b.start)
    (hale : a.start ≤ a.stop ∧ a.stop ≤ source.length)
    (hble : b.start ≤ b.stop ∧ b.stop ≤ source.length) : a = b := by
  have hslice : a.slice source = b.slice source → a = b := by
    intro heq
    have hlength := congrArg List.length heq
    rw [Span.length_slice hale.2, Span.length_slice hble.2] at hlength
    have hstop : a.stop = b.stop := by omega
    cases a
    cases b
    simp_all
  cases s with
  | definition span d => exact ha.symm.trans hb
  | slot span slot => exact hslice (ha.1.trans hb.1.symm)
  | text span =>
    have hshow : Piece.showText 0 (a.slice source) = Piece.showText 0 (b.slice source) := by
      rw [Piece.showText_eq_replace, Piece.showText_eq_replace, ha.1, hb.1]
    rcases Nat.le_total a.stop b.stop with hle | hle
    · exact hslice (Piece.eq_of_showText_eq (Span.slice_prefix hstart hle source) hshow)
    · exact hslice (Piece.eq_of_showText_eq (Span.slice_prefix hstart.symm hle source) hshow.symm).symm
  | unknown code name => cases ha

theorem Tiles.unique_of_readFrom {source text : Bytes} {sections : List Section} {start : Nat}
    {pieces pieces' : List Span} (h : Tiles start pieces source.length)
    (h' : Tiles start pieces' source.length)
    (hread : List.Forall₂ (Section.ReadFrom source text) sections pieces)
    (hread' : List.Forall₂ (Section.ReadFrom source text) sections pieces') : pieces = pieces' := by
  induction hread generalizing start pieces' with
  | nil =>
    cases hread'
    rfl
  | cons hs _ ih =>
    cases hread' with
    | cons hs' hrest' =>
      obtain ⟨hstart, hle, htiles⟩ := h
      obtain ⟨hstart', hle', htiles'⟩ := h'
      have hpiece := hs.unique hs' (hstart.trans hstart'.symm) ⟨hle, htiles.start_le.1⟩
        ⟨hle', htiles'.start_le.1⟩
      subst hpiece
      rw [ih htiles htiles' hrest']

/-- There is only one way to cut a source into the pieces of its document. -/
theorem Lossless.unique {source : Bytes} {d : Document} {pieces pieces' : List Span}
    (h : Lossless source d pieces) (h' : Lossless source d pieces') : pieces = pieces' :=
  h.pieces_tile.unique_of_readFrom h'.pieces_tile h.sections_read h'.sections_read

/-! ## Cutting a source -/

namespace Template

/-- Each piece starts where the pieces in front of it end. -/
theorem exists_append_of_mem_sourceSpans {sourceAt : Nat} {ps : List Piece} {span : Span}
    (h : span ∈ sourceSpans sourceAt ps) :
    ∃ front back, ps = front ++ back ∧
      span.start = sourceAt + (front.flatMap Piece.source).length := by
  induction ps generalizing sourceAt with
  | nil => cases h
  | cons p ps ih =>
    rcases List.mem_cons.mp h with rfl | h
    · exact ⟨[], p :: ps, rfl, rfl⟩
    · obtain ⟨front, back, rfl, hstart⟩ := ih h
      refine ⟨p :: front, back, rfl, ?_⟩
      rw [hstart, List.flatMap_cons, List.length_append, Nat.add_assoc]

/-- In front of what is left behind some pieces, the source can be read and has just these pieces. -/
theorem ReadsOff.parse_take {source rest : Bytes} {ps : List Piece} (h : ReadsOff source ps rest) :
    parse (source.take (ps.flatMap Piece.source).length) = .ok (layout ps) := by
  rw [← h.flatMap_source, List.take_left]
  exact parse_of_splits h.splits

theorem ReadsOff.drop_eq {source rest : Bytes} {ps : List Piece} (h : ReadsOff source ps rest) :
    source.drop (ps.flatMap Piece.source).length = rest := by
  rw [← h.flatMap_source, List.drop_left]

/-- Both parts of a source that is cut in front of a piece can be read, and they make up the document. -/
theorem parse_cut {source : Bytes} {d : Document} (h : parse source = .ok d) {pieces : List Span}
    (hpieces : Lossless source d pieces) {piece : Span} (hpiece : piece ∈ pieces) :
    ∃ front back, parse (source.take piece.start) = .ok front ∧
      parse (source.drop piece.start) = .ok back ∧ d = front.append piece.start back := by
  obtain ⟨ps, hps, rfl⟩ := parse_eq_ok h
  rw [hpieces.unique hps.lossless] at hpiece
  obtain ⟨front, back, rfl, hstart⟩ := exists_append_of_mem_sourceSpans hpiece
  obtain ⟨rest, hfront, hback⟩ := hps.exists_readsOff
  rw [hstart, Nat.zero_add]
  refine ⟨layout front, layout back, hfront.parse_take, ?_, layout_append front back⟩
  rw [hfront.drop_eq]
  exact parse_of_splits hback

/-- A source without a first piece fails for this reason. -/
theorem parse_of_read_eq_error {s : Bytes} {fault : Fault} (hs : s ≠ [])
    (h : Piece.read s = .error fault) : parse s = .error (fault.failure s.length) := by
  rw [parse, pieces_of_error hs h]

theorem opensTag_of_read_eq_error {s : Bytes} {fault : Fault} (h : Piece.read s = .error fault) :
    opensTag s := by
  by_contra hopens
  rw [Piece.read_of_not_opensTag hopens] at h
  cases h

/-- A source fails at its first bad tag: it can be read up to there, and from there on it fails in the
same way on its own. -/
theorem parse_blames {source : Bytes} {failure : Failure} (h : parse source = .error failure) :
    ∃ t front alone, opensTag (source.drop t) ∧ parse (source.take t) = .ok front ∧
      parse (source.drop t) = .error alone ∧ alone.MovedBy t failure := by
  obtain ⟨fault, hpieces, rfl⟩ := parse_eq_error h
  obtain ⟨ps, rest, hps, hne, hread⟩ := exists_readsOff_of_pieces_eq_error hpieces
  have hlength : source.length = (ps.flatMap Piece.source).length + rest.length := by
    rw [← List.length_append, hps.flatMap_source]
  refine ⟨(ps.flatMap Piece.source).length, layout ps, fault.failure rest.length, ?_,
    hps.parse_take, ?_, ?_⟩
  · rw [hps.drop_eq]
    exact opensTag_of_read_eq_error hread
  · rw [hps.drop_eq]
    exact parse_of_read_eq_error hne hread
  · rw [hlength]
    exact Fault.movedBy_failure (Piece.within_read rest fault hread) _

/-- A source is the one part behind the other wherever a piece of it starts; and what cannot be read
fails as it does without what stands in front of the first bad tag. -/
theorem parse_composes (source : Bytes) :
    (∀ d, parse source = .ok d → (∃ pieces, Lossless source d pieces) ∧
      ∀ pieces, Lossless source d pieces → ∀ piece ∈ pieces,
        ∃ front back, parse (source.take piece.start) = .ok front ∧
          parse (source.drop piece.start) = .ok back ∧ d = front.append piece.start back) ∧
      ∀ failure, parse source = .error failure →
        ∃ t front alone, opensTag (source.drop t) ∧ parse (source.take t) = .ok front ∧
          parse (source.drop t) = .error alone ∧ alone.MovedBy t failure := by
  refine ⟨fun d h => ⟨?_, fun pieces hpieces piece hpiece => parse_cut h hpieces hpiece⟩,
    fun failure h => parse_blames h⟩
  obtain ⟨ps, hps, rfl⟩ := parse_eq_ok h
  exact ⟨_, hps.lossless⟩

/-- A definition, plain text and a slot, cut in front of the slot; and the same slot without its end,
which fails at an offset that counts what stands in front of it. -/
theorem parse_composes_around_slot :
    (∃ d, parse (Bytes.ofString "\x7b\x7ba=1\x7d\x7dx\x7b\x7bb\x7d\x7d") = .ok d ∧
      Lossless (Bytes.ofString "\x7b\x7ba=1\x7d\x7dx\x7b\x7bb\x7d\x7d") d [⟨0, 7⟩, ⟨7, 8⟩, ⟨8, 13⟩] ∧
      ∃ front back, parse (Bytes.ofString "\x7b\x7ba=1\x7d\x7dx") = .ok front ∧
        parse (Bytes.ofString "\x7b\x7bb\x7d\x7d") = .ok back ∧ d = front.append 8 back) ∧
    parse (Bytes.ofString "\x7b\x7ba=1\x7d\x7dx\x7b\x7bb") =
        .error
          { kind := .parseError, name := Bytes.ofString "offset 8",
            detail := Bytes.ofString "unterminated tag" } ∧
      ∃ t front alone,
        opensTag ((Bytes.ofString "\x7b\x7ba=1\x7d\x7dx\x7b\x7bb").drop t) ∧
          parse ((Bytes.ofString "\x7b\x7ba=1\x7d\x7dx\x7b\x7bb").take t) = .ok front ∧
          parse ((Bytes.ofString "\x7b\x7ba=1\x7d\x7dx\x7b\x7bb").drop t) = .error alone ∧
          alone.MovedBy t
            { kind := .parseError, name := Bytes.ofString "offset 8",
              detail := Bytes.ofString "unterminated tag" } := by
  have hpieces : pieces (Bytes.ofString "\x7b\x7ba=1\x7d\x7dx\x7b\x7bb\x7d\x7d") =
      .ok
        [.definition (Bytes.ofString "\x7b\x7ba=1\x7d\x7d")
            { name := Bytes.ofString "a"
              content := { kind := .number, value := .number ⟨0x3ff0000000000000⟩ } },
          .text (Bytes.ofString "x"),
          .slot (Bytes.ofString "\x7b\x7bb\x7d\x7d") { name := Bytes.ofString "b" }] := by
    decide +kernel
  have hsplits := splits_of_pieces hpieces
  have hparse := parse_of_splits hsplits
  have hlossless := hsplits.lossless
  refine ⟨⟨_, hparse, hlossless, ?_⟩, ?_⟩
  · exact ((parse_composes _).1 _ hparse).2 _ hlossless ⟨8, 13⟩ (by decide)
  · have herror : parse (Bytes.ofString "\x7b\x7ba=1\x7d\x7dx\x7b\x7bb") =
        .error
          { kind := .parseError, name := Bytes.ofString "offset 8",
            detail := Bytes.ofString "unterminated tag" } := by
      decide +kernel
    exact ⟨herror, (parse_composes _).2 _ herror⟩

end Template

end Stencil
