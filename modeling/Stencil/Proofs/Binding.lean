import Mathlib.Data.List.Basic
import Stencil.Proofs.SectionOrder

/-!
# Binding up to the first conflict

Whether a section can be bound depends on the environment and on the names that the sections in front of
it define, and on nothing else (`Environment.Refused`). Binding adds the sections one by one, so that the
sections in front count among what is in the environment by the time that the section is looked at
(`refused_cons_iff`). By induction on the sections, they are all bound if none is refused, and otherwise
those in front of the first one that is (`bind_of_unrefused`, `bind_of_refused`). The main statement is
`bind_up_to_first_refused`.
-/

namespace Stencil.Environment

/-- Behind these sections the section is refused for this reason: it is of no known kind, or it defines a
name that a function has or that is taken, in the environment or by one of the sections in front. That the
name is a function's weighs more. -/
inductive Refused (isFunction : Bytes → Bool) (env : Environment) (front : List Section) :
    Section → Failure → Prop
  | unknownKind (code : Nat) (name : Bytes) :
    Refused isFunction env front (.unknown code name)
      { kind := .unknownSectionKind, name, detail := Bytes.ofString "section kind " ++ Bytes.ofNat code }
  | functionName {span : Span} {d : Definition} (h : isFunction d.name) :
    Refused isFunction env front (.definition span d) { kind := .nameConflictWithFunction, name := d.name }
  | takenName {span : Span} {d : Definition} (hfunction : isFunction d.name = false)
      (h : d.name ∈ env ∨ d.name ∈ front.filterMap Section.boundName?) :
    Refused isFunction env front (.definition span d) { kind := .nameConflict, name := d.name }

/-- Each of the sections can be bound behind those in front of it. -/
def Unrefused (isFunction : Bytes → Bool) (env : Environment) (sections : List Section) : Prop :=
  ∀ front s back, sections = front ++ s :: back → ∀ failure, ¬Refused isFunction env front s failure

/-- The first environment with the definitions among these sections, each under a name of its own, and
without anything else. -/
structure Extended (env : Environment) (sections : List Section) (bound : Environment) : Prop where
  kept {name : Bytes} {v : Variable} (h : env[name]? = some v) : bound[name]? = some v
  defined {span : Span} {d : Definition} (h : .definition span d ∈ sections) :
    bound[d.name]? = some d.variable
  only {name : Bytes} {v : Variable} (h : bound[name]? = some v) :
    env[name]? = some v ∨ ∃ span d, .definition span d ∈ sections ∧ d.name = name ∧ d.variable = v
  size : bound.size = env.size + (sections.filterMap Section.boundName?).length

variable {isFunction : Bytes → Bool} {env bound : Environment}

/-! ## One section -/

theorem refused_nil_iff {s : Section} {failure : Failure} :
    Refused isFunction env [] s failure ↔ env.conflict? isFunction s = some failure := by
  constructor
  · intro h
    cases h with
    | unknownKind code name => rfl
    | functionName h => simp [conflict?, h]
    | @takenName span d hfunction h =>
      have hmem : d.name ∈ env := by simpa using h
      simp [conflict?, hfunction, hmem]
  · intro h
    cases s with
    | text span => cases h
    | slot span slot => cases h
    | unknown code name =>
      cases h
      exact .unknownKind code name
    | definition span d =>
      cases hfunction : isFunction d.name with
      | true =>
        obtain rfl : _ = failure := by simpa [conflict?, hfunction] using h
        exact .functionName hfunction
      | false =>
        obtain ⟨hmem, rfl⟩ : d.name ∈ env ∧ _ = failure := by simpa [conflict?, hfunction] using h
        exact .takenName hfunction (.inl hmem)

/-- What is bound in front of a section counts for it as what is in the environment. -/
theorem refused_cons_iff {s t : Section} {front : List Section} {failure : Failure} :
    Refused isFunction env (s :: front) t failure ↔ Refused isFunction (env.add s) front t failure := by
  have htaken (name : Bytes) : name ∈ env ∨ name ∈ (s :: front).filterMap Section.boundName? ↔
      name ∈ env.add s ∨ name ∈ front.filterMap Section.boundName? := by
    rw [mem_add, List.mem_filterMap, List.exists_mem_cons_iff, ← List.mem_filterMap, or_left_comm, or_assoc]
  constructor
  · intro h
    cases h with
    | unknownKind code name => exact .unknownKind code name
    | functionName h => exact .functionName h
    | takenName hfunction h => exact .takenName hfunction ((htaken _).mp h)
  · intro h
    cases h with
    | unknownKind code name => exact .unknownKind code name
    | functionName h => exact .functionName h
    | takenName hfunction h => exact .takenName hfunction ((htaken _).mpr h)

theorem unrefused_cons_iff {s : Section} {rest : List Section} :
    Unrefused isFunction env (s :: rest) ↔
      env.conflict? isFunction s = none ∧ Unrefused isFunction (env.add s) rest := by
  rw [Option.eq_none_iff_forall_ne_some]
  constructor
  · intro h
    refine ⟨fun failure hfailure => h [] s rest rfl failure (refused_nil_iff.mpr hfailure), ?_⟩
    rintro front t back rfl failure hrefused
    exact h (s :: front) t back rfl failure (refused_cons_iff.mpr hrefused)
  · rintro ⟨hs, hrest⟩ front t back hsections failure hrefused
    cases front with
    | nil =>
      obtain ⟨rfl, -⟩ := List.cons.inj hsections
      exact hs failure (refused_nil_iff.mp hrefused)
    | cons u front =>
      obtain ⟨rfl, hrest'⟩ := List.cons.inj hsections
      exact hrest front t back hrest' failure (refused_cons_iff.mp hrefused)

theorem unrefused_nil : Unrefused isFunction env [] := fun front s back h => by
  cases front <;> cases h

/-! ## Row by row -/

namespace Extended

theorem nil (env : Environment) : Extended env [] env where
  kept := id
  defined h := by cases h
  only := .inl
  size := rfl

/-- A section that can be bound changes nothing that is in the environment. -/
theorem cons {s : Section} {rest : List Section} (hs : env.conflict? isFunction s = none)
    (h : Extended (env.add s) rest bound) : Extended env (s :: rest) bound := by
  cases s with
  | definition span d =>
    have hfree : d.name ∉ env := (conflict?_definition_eq_none_iff.mp hs).2
    have hsize : (env.add (.definition span d)).size = env.size + 1 := by
      simp [add, Std.ExtTreeMap.size_insert, hfree]
    refine ⟨fun {name v} hv => h.kept ?_, fun {span' d'} hd => ?_, fun {name v} hv => ?_, ?_⟩
    · have hne : d.name ≠ name := by
        rintro rfl
        exact hfree (Std.ExtTreeMap.mem_iff_isSome_getElem?.mpr (hv ▸ rfl))
      simpa [add, Std.ExtTreeMap.getElem?_insert, hne] using hv
    · rcases List.mem_cons.mp hd with heq | hd
      · cases heq
        exact h.kept (by simp [add])
      · exact h.defined hd
    · rcases h.only hv with hadd | ⟨span', d', hd, hname, hvariable⟩
      · by_cases hname : d.name = name
        · refine .inr ⟨span, d, List.mem_cons_self .., hname, ?_⟩
          simpa [add, Std.ExtTreeMap.getElem?_insert, hname] using hadd
        · exact .inl (by simpa [add, Std.ExtTreeMap.getElem?_insert, hname] using hadd)
      · exact .inr ⟨span', d', List.mem_cons_of_mem _ hd, hname, hvariable⟩
    · have hnames : ((Section.definition span d :: rest).filterMap Section.boundName?).length =
          (rest.filterMap Section.boundName?).length + 1 := rfl
      rw [h.size, hsize, hnames, Nat.add_assoc, Nat.add_comm 1]
  | _ =>
    have hrest : Extended env rest bound := h
    refine ⟨hrest.kept, fun {span' d'} hd => ?_, fun {name v} hv => ?_, hrest.size⟩
    · have hd' : .definition span' d' ∈ rest := by simpa using hd
      exact hrest.defined hd'
    · simpa using hrest.only hv

end Extended

theorem bind_of_unrefused {sections : List Section} (h : Unrefused isFunction env sections) :
    ∃ bound, env.bind isFunction sections = .ok bound ∧ Extended env sections bound := by
  induction sections generalizing env with
  | nil => exact ⟨env, rfl, .nil env⟩
  | cons s rest ih =>
    obtain ⟨hs, hrest⟩ := unrefused_cons_iff.mp h
    obtain ⟨bound, hbound, hextended⟩ := ih hrest
    exact ⟨bound, bind_cons_eq_ok_iff.mpr ⟨hs, hbound⟩, hextended.cons hs⟩

theorem bind_of_refused {front : List Section} {s : Section} {failure : Failure}
    (hfront : Unrefused isFunction env front) (h : Refused isFunction env front s failure)
    (back : List Section) :
    ∃ bound, env.bind isFunction (front ++ s :: back) = .error (failure, bound) ∧
      Extended env front bound := by
  induction front generalizing env with
  | nil =>
    refine ⟨env, ?_, .nil env⟩
    rw [List.nil_append, bind, refused_nil_iff.mp h]
  | cons t front ih =>
    obtain ⟨ht, hrest⟩ := unrefused_cons_iff.mp hfront
    obtain ⟨bound, hbound, hextended⟩ := ih hrest (refused_cons_iff.mp h)
    refine ⟨bound, ?_, hextended.cons ht⟩
    rw [List.cons_append, bind, ht, hbound]

/-- Sections of which none is refused are all bound: the environment is kept, with one more entry for each
definition and no others. Otherwise binding fails for the reason for which the first such section is
refused, and the definitions in front of it are bound. -/
theorem bind_up_to_first_refused (isFunction : Bytes → Bool) (env : Environment) (sections : List Section) :
    (Unrefused isFunction env sections →
      ∃ bound, env.bind isFunction sections = .ok bound ∧ Extended env sections bound) ∧
    ∀ front s back failure, sections = front ++ s :: back → Unrefused isFunction env front →
      Refused isFunction env front s failure →
        ∃ bound, env.bind isFunction sections = .error (failure, bound) ∧ Extended env front bound := by
  refine ⟨bind_of_unrefused, ?_⟩
  rintro front s back failure rfl hfront hrefused
  exact bind_of_refused hfront hrefused back

/-- A text, a definition and a slot, and behind them the same definition again and a section of no known
kind, which is not looked at. -/
theorem bind_up_to_first_refused_of_repeated :
    let isFunction := ({} : Session Unit).isFunction
    let env : Environment := (∅ : Environment).insert (Bytes.ofString "y") { kind := .text, value := .text [] }
    let d : Definition :=
      { name := Bytes.ofString "x", content := { kind := .text, value := .text (Bytes.ofString "a") } }
    let front : List Section :=
      [.text ⟨0, 1⟩, .definition ⟨1, 12⟩ d, .slot ⟨1, 6⟩ { name := Bytes.ofString "x" }]
    let back : List Section := [.unknown 3 (Bytes.ofString "z")]
    let failure : Failure := { kind := .nameConflict, name := Bytes.ofString "x" }
    Unrefused isFunction env front ∧ Refused isFunction env front (.definition ⟨17, 28⟩ d) failure ∧
      (∃ bound, env.bind isFunction front = .ok bound ∧ Extended env front bound) ∧
      ∃ bound, env.bind isFunction (front ++ .definition ⟨17, 28⟩ d :: back) = .error (failure, bound) ∧
        Extended env front bound := by
  intro isFunction env d front back failure
  have hfunction : isFunction d.name = false := by decide +kernel
  have hne : Bytes.ofString "y" ≠ Bytes.ofString "x" := by decide
  have hfree : d.name ∉ env := by simp [env, d, hne]
  have hfront : Unrefused isFunction env front :=
    unrefused_cons_iff.mpr ⟨rfl, unrefused_cons_iff.mpr
      ⟨conflict?_definition_eq_none_iff.mpr ⟨hfunction, hfree⟩, unrefused_cons_iff.mpr ⟨rfl, unrefused_nil⟩⟩⟩
  have hrefused : Refused isFunction env front (.definition ⟨17, 28⟩ d) failure :=
    .takenName hfunction (.inr (List.mem_singleton_self _))
  exact ⟨hfront, hrefused, (bind_up_to_first_refused isFunction env front).1 hfront,
    (bind_up_to_first_refused isFunction env _).2 front _ back failure rfl hfront hrefused⟩

end Stencil.Environment
