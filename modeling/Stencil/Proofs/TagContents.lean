import Stencil.Proofs.Layout
import Stencil.Proofs.TagReading

/-!
# What is read

What a tag and a piece must have been read from, if they could be read at all: one inversion for each
reader, which says everything the reader checks. `read_eq_ok` is the one for whole tags, and
`Piece.Reads` the one for pieces: a piece that is no plain text comes from a tag, and the tag is a
definition, opens a block whose end was found, or is a slot of which every argument has a value.
-/

namespace Stencil

open Ascii
open Piece (opener closer)

namespace Tag

open Bytes (trimStart)

/-! ## Parts of a tag -/

theorem requireLiterals_eq_ok_iff {name : Bytes} {params : List Param} :
    requireLiterals name params = .ok () ↔ ∀ p ∈ params, p.required = false := by
  unfold requireLiterals
  split
  · rename_i p hp
    refine iff_of_false (by simp) fun h => ?_
    exact absurd (List.find?_some hp) (by simp [h p (List.mem_of_find?_eq_some hp)])
  · rename_i hnone
    exact iff_of_true rfl fun p hp => by simpa using List.find?_eq_none.mp hnone p hp

theorem readContent_eq_ok {name s rest : Bytes} {content : Variable}
    (h : readContent name s = .ok (content, rest)) :
    (startsName s ∧ (trimStart (readName s).2).head? = some openParen ∧
      ∃ arguments, readParams (trimStart (readName s).2).tail = .ok (arguments, rest) ∧
        requireLiterals name arguments = .ok () ∧
        content = { kind := .function, value := .text (readName s).1, params := arguments }) ∨
    (¬startsName s ∧ ∃ value, readLiteral s = .ok (value, rest) ∧ content = .ofValue value) := by
  unfold readContent at h
  split at h
  · rename_i hname
    dsimp only at h
    split at h
    · rename_i hopen
      obtain ⟨⟨arguments, behind⟩, hparams, h⟩ := Fault.bind_eq_ok.mp h
      obtain ⟨⟨⟩, hrequire, hok⟩ := Fault.bind_eq_ok.mp h
      cases hok
      exact .inl ⟨hname, hopen, arguments, hparams, hrequire, rfl⟩
    · cases h
  · rename_i hname
    obtain ⟨⟨value, behind⟩, hliteral, hok⟩ := Fault.bind_eq_ok.mp h
    cases hok
    exact .inr ⟨hname, value, hliteral, rfl⟩

theorem readDefinition_eq_ok {name s : Bytes} {t : Tag} (h : readDefinition name s = .ok t) :
    ∃ content rest, readContent name (trimStart s) = .ok (content, rest) ∧ Bytes.isBlank rest ∧
      t = .definition { name, content } := by
  unfold readDefinition at h
  obtain ⟨⟨content, rest⟩, hcontent, h⟩ := Fault.bind_eq_ok.mp h
  dsimp only at h
  split at h
  · rename_i hblank
    cases h
    exact ⟨content, rest, hcontent, hblank, rfl⟩
  · cases h

theorem readSlotParams_eq_ok {s rest : Bytes} {params : List Param}
    (h : readSlotParams s = .ok (params, rest)) :
    (s.head? = some openParen ∧
      ∃ behind, readParams s.tail = .ok (params, behind) ∧ rest = trimStart behind) ∨
    (params = [] ∧ rest = s) := by
  unfold readSlotParams at h
  split at h
  · rename_i hopen
    obtain ⟨⟨params', behind⟩, hparams, hok⟩ := Fault.bind_eq_ok.mp h
    cases hok
    exact .inl ⟨hopen, behind, hparams, rfl⟩
  · cases h
    exact .inr ⟨rfl, rfl⟩

theorem readOperation_eq_ok {name s rest : Bytes} {operation : Option Operation}
    (h : readOperation name s = .ok (operation, rest)) :
    (operation = none ∧ rest = s) ∨
    ∃ operator operand behind, s.head?.bind Operator.ofSymbol? = some operator ∧
      readLiteral (trimStart s.tail) = .ok (.number operand, behind) ∧
      Operation.dividesByZero ⟨operator, operand⟩ = false ∧ operation = some ⟨operator, operand⟩ ∧
      rest = trimStart behind := by
  unfold readOperation at h
  split at h
  · cases h
    exact .inl ⟨rfl, rfl⟩
  · rename_i operator hoperator
    obtain ⟨⟨value, behind⟩, hliteral, h⟩ := Fault.bind_eq_ok.mp h
    cases value with
    | text t => cases h
    | number operand =>
      dsimp only at h
      split at h
      · cases h
      · rename_i hzero
        cases h
        exact .inr ⟨operator, operand, behind, hoperator, hliteral, by simpa using hzero, rfl, rfl⟩

theorem readSlot_eq_ok {raw : Bool} {name s : Bytes} {t : Tag} (h : readSlot raw name s = .ok t) :
    ∃ params rest operation, readSlotParams s = .ok (params, rest) ∧
      readOperation name rest = .ok (operation, []) ∧ t = .slot { name, params, raw, operation } := by
  unfold readSlot at h
  obtain ⟨⟨params, rest⟩, hparams, h⟩ := Fault.bind_eq_ok.mp h
  obtain ⟨⟨operation, rest'⟩, hoperation, h⟩ := Fault.bind_eq_ok.mp h
  dsimp only at hoperation h
  split at h
  · rename_i hend
    obtain rfl := List.isEmpty_iff.mp hend
    cases h
    exact ⟨params, rest, operation, hparams, hoperation, rfl⟩
  · cases h

/-- A tag that can be read begins with a name, and goes on as a definition or as a slot. -/
theorem read_eq_ok {body : Bytes} {t : Tag} (h : read body = .ok t) :
    ∃ raw name after, Header body raw name after ∧
      ((raw = false ∧ after.head? = some equals ∧ readDefinition name after.tail = .ok t) ∨
        readSlot raw name after = .ok t) := by
  by_cases hheader : ∃ raw name after, Header body raw name after
  · obtain ⟨raw, name, after, hheader⟩ := hheader
    rw [read_of_header hheader] at h
    refine ⟨raw, name, after, hheader, ?_⟩
    split at h
    · rename_i hdefinition
      exact .inl ⟨by simpa using hdefinition.1, hdefinition.2, h⟩
    · exact .inr h
  · obtain ⟨place, hread | hread⟩ := read_of_not_header fun raw name after hh =>
      hheader ⟨raw, name, after, hh⟩
    all_goals
      rw [hread] at h
      cases h

theorem read_eq_definition {body : Bytes} {f : Definition} (h : read body = .ok (.definition f)) :
    ∃ name after content rest, Header body false name after ∧ after.head? = some equals ∧
      readContent name (trimStart after.tail) = .ok (content, rest) ∧ Bytes.isBlank rest ∧
      f = { name, content } := by
  obtain ⟨raw, name, after, hheader, ⟨rfl, heq, hdefinition⟩ | hslot⟩ := read_eq_ok h
  · obtain ⟨content, rest, hcontent, hblank, ht⟩ := readDefinition_eq_ok hdefinition
    cases ht
    exact ⟨name, after, content, rest, hheader, heq, hcontent, hblank, rfl⟩
  · obtain ⟨_, _, _, _, _, ht⟩ := readSlot_eq_ok hslot
    cases ht

theorem read_eq_slot {body : Bytes} {s : Slot} (h : read body = .ok (.slot s)) :
    ∃ raw name after params rest operation, Header body raw name after ∧
      readSlotParams after = .ok (params, rest) ∧ readOperation name rest = .ok (operation, []) ∧
      s = { name, params, raw, operation } := by
  obtain ⟨raw, name, after, hheader, ⟨-, -, hdefinition⟩ | hslot⟩ := read_eq_ok h
  · obtain ⟨_, _, _, _, ht⟩ := readDefinition_eq_ok hdefinition
    cases ht
  · obtain ⟨params, rest, operation, hparams, hoperation, ht⟩ := readSlot_eq_ok hslot
    cases ht
    exact ⟨raw, name, after, params, rest, operation, hheader, hparams, hoperation, rfl⟩

end Tag

/-! ## Pieces -/

namespace Piece

/-- What a tag and the source behind it make, with `source` for the tag and its braces. -/
inductive OfTag (source after : Bytes) : Tag → Piece → (rest : Bytes) → Prop
  | definition (d : Definition) : OfTag source after (.definition d) (.definition source d) after
  | block {s : Slot} {body rest : Bytes} (h : splitBlock? s after = some (body, rest)) :
    OfTag source after (.slot s)
      (.definition (source ++ body ++ closingTag s.name)
        { name := s.name, content := { kind := .text, value := .text (blockText body) },
          params := s.params })
      rest
  | slot {s : Slot} (h : splitBlock? s after = none)
      (hparams : ∀ p ∈ s.params, p.required = false) :
    OfTag source after (.slot s) (.slot source s) after

theorem ofTag_eq_ok {source after rest : Bytes} {t : Tag} {p : Piece}
    (h : ofTag source after t = .ok (p, rest)) : OfTag source after t p rest := by
  cases t with
  | definition d =>
    cases h
    exact .definition d
  | slot s =>
    simp only [ofTag] at h
    split at h
    · rename_i body rest' hblock
      cases h
      exact .block hblock
    · rename_i hblock
      obtain ⟨⟨⟩, hrequire, hok⟩ := Fault.bind_eq_ok.mp h
      cases hok
      exact .slot hblock (Tag.requireLiterals_eq_ok_iff.mp hrequire)

/-- A piece is read off the front of a source as plain text, or it is what a tag makes. -/
inductive Reads : (s : Bytes) → Piece → (rest : Bytes) → Prop
  | text {s : Bytes} (h : ¬opensTag s) : Reads s (.text (splitText 0 s).1) (splitText 0 s).2
  | tag {body after rest : Bytes} {t : Tag} {p : Piece}
      (hsplit : splitTag .outside (body ++ closer ++ after) = some (body, after))
      (hread : Tag.read body = .ok t) (h : OfTag (opener ++ body ++ closer) after t p rest) :
    Reads (opener ++ body ++ closer ++ after) p rest

theorem read_eq_ok {s rest : Bytes} {p : Piece} (h : read s = .ok (p, rest)) : Reads s p rest := by
  by_cases ho : opensTag s
  · obtain ⟨t, rfl⟩ := List.isPrefixOf_iff_prefix.mp ho
    rw [read_of_opensTag ho, List.drop_left, readTag] at h
    split at h
    · cases h
    · rename_i body after hsplit
      have happ := append_of_splitTag hsplit
      split at h
      · cases h
      · rename_i tag hread
        have hreads := Reads.tag (happ ▸ hsplit) hread (ofTag_eq_ok h)
        rwa [List.append_assoc, List.append_assoc, ← List.append_assoc body, happ] at hreads
  · rw [read_of_not_opensTag ho] at h
    cases h
    exact .text ho

end Piece

/-! ## Sections -/

namespace Template

/-- This piece of a source makes this section of a document: the places of the section are where the
piece stands in the source and what it shows in the text. -/
structure MakesSection (source : Bytes) (d : Document) (p : Piece) (s : Section) : Prop where
  reads : ∃ front rest, Piece.Reads front p rest
  places : ∃ before after shown more, source = before ++ (p.source ++ after) ∧
    d.text = shown ++ (p.shown ++ more) ∧ s = sectionAt before.length shown.length p

theorem Splits.exists_makesSection {source : Bytes} {ps : List Piece} (h : Splits source ps)
    (before shown : Bytes) {s : Section} (hs : s ∈ sectionsFrom before.length shown.length ps) :
    ∃ p, MakesSection (before ++ source) ⟨shown ++ ps.flatMap Piece.shown, []⟩ p s := by
  induction h generalizing before shown with
  | nil => cases hs
  | cons hne hr hps ih =>
    rename_i source rest p ps
    have hsource := Piece.source_append_of_read hr
    rcases List.mem_cons.mp hs with rfl | hs
    · refine ⟨p, ⟨_, _, Piece.read_eq_ok hr⟩, before, rest, shown, ps.flatMap Piece.shown, ?_, ?_, rfl⟩
      · rw [hsource]
      · rw [List.flatMap_cons]
    · rw [← List.length_append, ← List.length_append] at hs
      have hmore := ih (before ++ p.source) (shown ++ p.shown) hs
      rwa [List.append_assoc, hsource, List.append_assoc, ← List.flatMap_cons] at hmore

/-- Each section of a document that was parsed is made by a piece of the source. -/
theorem exists_makesSection {source : Bytes} {d : Document} (h : parse source = .ok d) {s : Section}
    (hs : s ∈ d.sections) : ∃ p, MakesSection source d p s := by
  obtain ⟨ps, hps, rfl⟩ := parse_eq_ok h
  obtain ⟨p, hreads, hplaces⟩ := hps.exists_makesSection [] [] hs
  exact ⟨p, hreads, hplaces⟩

/-- A section that is a slot is made by the tag of the slot, which is what its range of the text
holds. -/
theorem exists_tag_of_slot {source : Bytes} {d : Document} (h : parse source = .ok d) {span : Span}
    {s : Slot} (hs : .slot span s ∈ d.sections) :
    ∃ body after, Piece.splitTag .outside (body ++ closer ++ after) = some (body, after) ∧
      Tag.read body = .ok (.slot s) ∧ (∀ p ∈ s.params, p.required = false) ∧
      span.slice d.text = opener ++ body ++ closer := by
  obtain ⟨p, ⟨front, rest, hreads⟩, before, after, shown, more, -, htext, hsection⟩ :=
    exists_makesSection h hs
  cases hreads with
  | text h => cases hsection
  | tag hsplit hread hof =>
    cases hof with
    | definition d => cases hsection
    | block hblock => cases hsection
    | slot hblock hparams =>
      cases hsection
      exact ⟨_, _, hsplit, hread, hparams, Span.slice_of_append htext rfl rfl⟩

/-- A section that is a definition is made by a tag that defines it, which is what its range of the
source holds, or by one that opens a block. -/
theorem exists_tag_of_definition {source : Bytes} {d : Document} (h : parse source = .ok d)
    {span : Span} {f : Definition} (hf : .definition span f ∈ d.sections) :
    ∃ body after, Piece.splitTag .outside (body ++ closer ++ after) = some (body, after) ∧
      ((Tag.read body = .ok (.definition f) ∧ span.slice source = opener ++ body ++ closer) ∨
        ∃ s content rest, Tag.read body = .ok (.slot s) ∧
          Piece.splitBlock? s after = some (content, rest) ∧
          f = { name := s.name, content := { kind := .text, value := .text (Piece.blockText content) },
                params := s.params }) := by
  obtain ⟨p, ⟨front, rest, hreads⟩, before, after, shown, more, hsource, -, hsection⟩ :=
    exists_makesSection h hf
  cases hreads with
  | text h => cases hsection
  | tag hsplit hread hof =>
    cases hof with
    | definition d =>
      cases hsection
      exact ⟨_, _, hsplit, .inl ⟨hread, Span.slice_of_append hsource rfl rfl⟩⟩
    | block hblock =>
      cases hsection
      exact ⟨_, _, hsplit, .inr ⟨_, _, _, hread, hblock, rfl⟩⟩
    | slot hblock hparams => cases hsection

end Template

end Stencil
