import Stencil.Proofs.Rebuild
import Stencil.Proofs.TagContents

/-!
# Documents that were parsed

What the evaluation of a document relies on, and what every document that was parsed has: each of its
sections is of a known kind and so is what a definition binds its name to (`bindable_of_parse`), no
operation divides by zero (`dividesByZero_of_parse`), and its slots lie in its text, are not empty and
do not overlap (`slotsApart_of_parse`).
-/

namespace Stencil

open Piece (opener closer)

/-! ## Kinds -/

/-- A section of a known kind; what a definition binds its name to is of a known kind too. -/
def Section.Bindable : Section → Prop
  | .text _ | .slot _ _ => True
  | .definition _ d => d.variable.kind ≠ .unknown
  | .unknown _ _ => False

theorem Variable.kind_ofValue (v : Value) : (Variable.ofValue v).kind ≠ .unknown := by
  cases v <;> simp [ofValue]

theorem Definition.kind_variable {d : Definition} (h : d.content.kind ≠ .unknown) :
    d.variable.kind ≠ .unknown := by
  cases hkind : d.content.kind <;> simp_all [Definition.variable]

theorem Tag.kind_of_definition {body : Bytes} {f : Definition}
    (h : Tag.read body = .ok (.definition f)) : f.content.kind ≠ .unknown := by
  obtain ⟨name, after, content, rest, -, -, hcontent, -, rfl⟩ := Tag.read_eq_definition h
  rcases Tag.readContent_eq_ok hcontent with ⟨-, -, arguments, -, -, rfl⟩ | ⟨-, value, -, rfl⟩
  · simp
  · exact Variable.kind_ofValue value

namespace Template

theorem bindable_of_parse {source : Bytes} {d : Document} (h : parse source = .ok d) :
    ∀ s ∈ d.sections, s.Bindable := by
  intro s hs
  cases s with
  | text span => trivial
  | slot span slot => trivial
  | definition span f =>
    refine Definition.kind_variable ?_
    obtain ⟨body, after, -, ⟨hread, -⟩ | ⟨_, _, _, _, _, rfl⟩⟩ := exists_tag_of_definition h hs
    · exact Tag.kind_of_definition hread
    · simp
  | unknown code name =>
    obtain ⟨p, -, _, _, _, _, -, -, hsection⟩ := exists_makesSection h hs
    cases p <;> cases hsection

/-! ## Operations -/

theorem dividesByZero_of_parse {source : Bytes} {d : Document} (h : parse source = .ok d) {span : Span}
    {s : Slot} (hs : .slot span s ∈ d.sections) {o : Operation} (ho : s.operation = some o) :
    o.dividesByZero = false := by
  obtain ⟨body, after, -, hread, -, -⟩ := exists_tag_of_slot h hs
  obtain ⟨raw, name, front, params, rest, operation, -, -, hoperation, rfl⟩ := Tag.read_eq_slot hread
  rcases Tag.readOperation_eq_ok hoperation with ⟨rfl, -⟩ | ⟨_, _, _, _, _, hzero, rfl, _⟩
  · cases ho
  · cases ho
    exact hzero

/-- The operation of a slot that was parsed can be applied to every value. -/
theorem compute_of_parse {source : Bytes} {d : Document} (h : parse source = .ok d) {span : Span}
    {s : Slot} (hs : .slot span s ∈ d.sections) (value : Value) :
    ∃ computed, s.compute value = .ok computed := by
  unfold Slot.compute
  cases ho : s.operation with
  | none => exact ⟨value, rfl⟩
  | some o =>
    dsimp only
    rw [if_neg (by simp [dividesByZero_of_parse h hs ho])]
    cases value with
    | number x => exact ⟨_, rfl⟩
    | text t => exact ⟨_, rfl⟩

end Template

/-! ## Places of slots -/

theorem Tiles.pairwise_apart {start stop : Nat} {spans : List Span} (h : Tiles start spans stop) :
    spans.Pairwise Span.Apart := by
  induction spans generalizing start with
  | nil => exact .nil
  | cons span spans ih =>
    obtain ⟨-, -, hrest⟩ := h
    exact .cons (fun b hb => .inl (hrest.start_le.2 b hb).1) (ih hrest)

/-- The ranges of the slots are among those that sections show. -/
theorem Document.sublist_slots (d : Document) :
    (d.slots.map Prod.fst).Sublist (d.sections.filterMap Section.shownSpan?) := by
  rw [Document.slots, List.map_filterMap]
  induction d.sections with
  | nil => exact .slnil
  | cons s sections ih =>
    cases s with
    | slot span slot => exact ih.cons_cons span
    | text span => exact ih.cons span
    | definition span f => exact ih
    | unknown code name => exact ih

theorem Document.mem_slots {d : Document} {span : Span} {s : Slot} :
    (span, s) ∈ d.slots ↔ .slot span s ∈ d.sections := by
  rw [Document.slots, List.mem_filterMap]
  constructor
  · rintro ⟨sec, hsec, heq⟩
    cases sec with
    | slot span' s' =>
      cases heq
      exact hsec
    | _ => cases heq
  · exact fun h => ⟨_, h, rfl⟩

theorem Template.slotsApart_of_parse {source : Bytes} {d : Document} (h : parse source = .ok d) :
    d.SlotsApart := by
  obtain ⟨ps, hps, rfl⟩ := parse_eq_ok h
  have htiles := hps.lossless.shown_tile
  refine ⟨fun ⟨span, s⟩ hs => ?_, fun a ha => ?_, ?_⟩
  · obtain ⟨body, after, -, -, -, hslice⟩ := exists_tag_of_slot h (Document.mem_slots.mp hs)
    show span.start < span.stop
    by_contra hle
    have hlength := congrArg List.length hslice
    simp only [Span.slice, List.length_drop, List.length_take, List.length_append, opener,
      List.length_cons] at hlength
    omega
  · have hmem := (Document.sublist_slots _).subset (List.mem_map_of_mem (f := Prod.fst) ha)
    exact (htiles.start_le.2 a.1 hmem).2
  · exact List.pairwise_map.mp (htiles.pairwise_apart.sublist (Document.sublist_slots _))

end Stencil
