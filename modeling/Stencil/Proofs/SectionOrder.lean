import Stencil.Proofs.Evaluations
import Stencil.Proofs.Rebuild

/-!
# The order of sections

A document lists its sections in some order, and nothing that succeeds depends on it. Whether a section
can be bound depends on the names that are taken, so that two sections which can be bound one after the
other can be bound the other way round, to the same environment (`bind_swap`); from this it follows for
all orders by induction on the permutation (`bind_eq_ok_of_perm`). Slots are filled in from the last to
the first, which is one order of them if no two start in one place (`slotsFromEnd_eq_of_perm`). The main
statement is `renderDocument_eq_of_perm`.
-/

namespace Stencil

/-! ## Binding sections one after the other -/

/-- The name that a section binds, if it is a definition. -/
def Section.boundName? : Section → Option Bytes
  | .definition _ d => some d.name
  | .text _ | .slot _ _ | .unknown _ _ => none

namespace Environment

variable {isFunction : Bytes → Bool} {env bound : Environment}

theorem bind_cons_eq_ok_iff {s : Section} {rest : List Section} :
    env.bind isFunction (s :: rest) = .ok bound ↔
      env.conflict? isFunction s = none ∧ (env.add s).bind isFunction rest = .ok bound := by
  rw [bind]
  cases env.conflict? isFunction s <;> simp

theorem mem_add {s : Section} {name : Bytes} :
    name ∈ env.add s ↔ s.boundName? = some name ∨ name ∈ env := by
  cases s <;> simp [add, Section.boundName?]

theorem conflict?_definition_eq_none_iff {span : Span} {d : Definition} :
    env.conflict? isFunction (.definition span d) = none ↔
      isFunction d.name = false ∧ d.name ∉ env := by
  by_cases hfunction : isFunction d.name <;> simp [conflict?, hfunction]

/-- A section that can be bound can be bound behind another one unless both bind one name. -/
theorem conflict?_add_eq_none_iff {s t : Section} :
    (env.add s).conflict? isFunction t = none ↔
      env.conflict? isFunction t = none ∧ ∀ name ∈ t.boundName?, s.boundName? ≠ some name := by
  cases t with
  | definition span d =>
    have hname : (∀ name ∈ (Section.definition span d).boundName?, s.boundName? ≠ some name) ↔
        s.boundName? ≠ some d.name := by
      simp [Section.boundName?]
    rw [hname, conflict?_definition_eq_none_iff, conflict?_definition_eq_none_iff, mem_add, not_or,
      and_assoc, and_comm (a := s.boundName? ≠ _)]
  | _ => simp [conflict?, Section.boundName?]

theorem add_add_comm {s t : Section} (h : ∀ name ∈ t.boundName?, s.boundName? ≠ some name) :
    (env.add s).add t = (env.add t).add s := by
  cases s with
  | definition span d =>
    cases t with
    | definition span' d' =>
      have hne : d.name ≠ d'.name := by simpa [Section.boundName?] using h
      refine Std.ExtTreeMap.ext_getElem? fun name => ?_
      simp only [add, Std.ExtTreeMap.getElem?_insert, Std.LawfulEqCmp.compare_eq_iff_eq]
      by_cases h' : d'.name = name <;> by_cases hd : d.name = name <;> simp_all
    | _ => rfl
  | _ => rfl

theorem bind_swap {s t : Section} {rest : List Section}
    (h : env.bind isFunction (s :: t :: rest) = .ok bound) :
    env.bind isFunction (t :: s :: rest) = .ok bound := by
  simp only [bind_cons_eq_ok_iff, conflict?_add_eq_none_iff] at h ⊢
  obtain ⟨hs, ⟨ht, hnames⟩, hrest⟩ := h
  have hnames' : ∀ name ∈ s.boundName?, t.boundName? ≠ some name :=
    fun name hname hname' => hnames name hname' hname
  exact ⟨ht, ⟨hs, hnames'⟩, add_add_comm hnames ▸ hrest⟩

theorem bind_eq_ok_of_perm {sections sections' : List Section} (h : sections.Perm sections')
    (hb : env.bind isFunction sections = .ok bound) : env.bind isFunction sections' = .ok bound := by
  induction h generalizing env with
  | nil => exact hb
  | cons s _ ih =>
    rw [bind_cons_eq_ok_iff] at hb ⊢
    exact ⟨hb.1, ih hb.2⟩
  | swap s t rest => exact bind_swap hb
  | trans _ _ ih ih' => exact ih' (ih hb)

end Environment

/-! ## Slots from the last to the first -/

namespace Document

theorem perm_slots {d d' : Document} (h : d.sections.Perm d'.sections) : d.slots.Perm d'.slots :=
  h.filterMap _

/-- No two slots start in one place. -/
def StartsApart (d : Document) : Prop := d.slots.Pairwise fun a b => a.1.start ≠ b.1.start

instance (d : Document) : Decidable d.StartsApart :=
  inferInstanceAs (Decidable (d.slots.Pairwise fun a b => a.1.start ≠ b.1.start))

theorem StartsApart.of_perm {d d' : Document} (h : d.sections.Perm d'.sections) (hd : d.StartsApart) :
    d'.StartsApart :=
  List.Pairwise.perm hd (perm_slots h) Ne.symm

/-- Each slot starts in front of the ones that are filled in before it. -/
theorem StartsApart.pairwise {d : Document} (h : d.StartsApart) :
    d.slotsFromEnd.Pairwise fun a b => b.1.start < a.1.start := by
  have hapart : d.slotsFromEnd.Pairwise fun a b => a.1.start ≠ b.1.start :=
    List.Pairwise.perm h (List.mergeSort_perm ..).symm Ne.symm
  exact (d.pairwise_slotsFromEnd.and hapart).imp fun ⟨hle, hne⟩ => by omega

theorem slotsFromEnd_eq_of_perm {d d' : Document} (h : d.sections.Perm d'.sections)
    (hd : d.StartsApart) : d.slotsFromEnd = d'.slotsFromEnd := by
  have hperm : d.slotsFromEnd.Perm d'.slotsFromEnd :=
    (List.mergeSort_perm ..).trans ((perm_slots h).trans (List.mergeSort_perm ..).symm)
  exact hperm.eq_of_pairwise (fun a b _ _ hab hba => by omega) hd.pairwise (hd.of_perm h).pairwise

end Document

/-! ## Rendering -/

namespace Session

variable {σ : Type}

theorem renderDocument_of_bind (s : Session σ) (depth : Int) {env bound : Environment} {d : Document}
    (h : env.bind s.isFunction d.sections = .ok bound) :
    s.renderDocument depth env d = do
      s.note (.bound bound.size depth)
      let text ← d.slotsFromEnd.foldlM (s.fillSlot (s.render (depth + 1)) bound) d.text
      return normalize text :=
  s.renderDocumentWith_of_bind _ depth h

/-- Documents that list the same sections in different orders are bound to the same environment, or
neither can be bound; and if they can, rendering them comes to the same in every world: the same text or
failure, the same calls and other events, and the same world after it. Functions of the host may change their
state with every call, but look at nothing else than that and their arguments (`HostFunction`). -/
theorem renderDocument_eq_of_perm (s : Session σ) (depth : Int) (env : Environment) {d d' : Document}
    (htext : d.text = d'.text) (h : d.sections.Perm d'.sections) (hd : d.StartsApart) :
    ((∃ failure, env.bind s.isFunction d.sections = .error failure) ↔
        ∃ failure, env.bind s.isFunction d'.sections = .error failure) ∧
      ∀ bound, env.bind s.isFunction d.sections = .ok bound →
        env.bind s.isFunction d'.sections = .ok bound ∧
          s.renderDocument depth env d = s.renderDocument depth env d' := by
  have hbind (bound : Environment) : env.bind s.isFunction d.sections = .ok bound ↔
      env.bind s.isFunction d'.sections = .ok bound :=
    ⟨Environment.bind_eq_ok_of_perm h, Environment.bind_eq_ok_of_perm h.symm⟩
  constructor
  · cases hb : env.bind s.isFunction d.sections with
    | ok bound => simp [(hbind bound).mp hb]
    | error failure =>
      cases hb' : env.bind s.isFunction d'.sections with
      | ok bound => simp [(hbind bound).mpr hb'] at hb
      | error failure' => simp
  · intro bound hb
    have hb' := (hbind bound).mp hb
    refine ⟨hb', ?_⟩
    rw [s.renderDocument_of_bind depth hb, s.renderDocument_of_bind depth hb', htext,
      Document.slotsFromEnd_eq_of_perm h hd]

/-! A session with a function that counts its calls, and a document that calls it twice, listed in two
ways. -/

def numbering : Session Nat where
  functions :=
    (Registry.builtin Nat).insert (Bytes.ofString "next")
      (.host fun _ calls => (.ok (.text (Bytes.ofNat calls)), calls + 1))

/-- The definition of a variable that stands for a call. -/
def numbered : Definition where
  name := Bytes.ofString "x"
  content := { kind := .function, value := .text (Bytes.ofString "next") }

def listed : Document where
  text := Bytes.ofString "\x7b\x7bx\x7d\x7d\x7b\x7bnext\x7d\x7d"
  sections :=
    [.definition ⟨0, 14⟩ numbered, .slot ⟨0, 5⟩ { name := Bytes.ofString "x" },
      .slot ⟨5, 13⟩ { name := Bytes.ofString "next" }]

def relisted : Document := { listed with sections := listed.sections.reverse }

theorem renderDocument_eq_of_perm_of_relisted :
    listed.text = relisted.text ∧ listed.sections.Perm relisted.sections ∧ listed.StartsApart ∧
      (∅ : Environment).bind numbering.isFunction listed.sections =
        .ok ((∅ : Environment).insert numbered.name numbered.variable) ∧
      numbering.renderDocument 0 ∅ listed = numbering.renderDocument 0 ∅ relisted := by
  have hperm : listed.sections.Perm relisted.sections := (List.reverse_perm _).symm
  have hstarts : listed.StartsApart := by decide
  have hbound : (∅ : Environment).bind numbering.isFunction listed.sections =
      .ok ((∅ : Environment).insert numbered.name numbered.variable) :=
    Environment.bind_cons_eq_ok_iff.mpr ⟨by decide +kernel, rfl⟩
  have htext : listed.text = relisted.text := rfl
  exact ⟨htext, hperm, hstarts, hbound,
    ((renderDocument_eq_of_perm numbering 0 ∅ htext hperm hstarts).2 _ hbound).2⟩

end Session

end Stencil
