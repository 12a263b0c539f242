import Mathlib.Data.List.Basic
import Stencil.Proofs.SectionOrder
import Stencil.Proofs.Telling

/-!
# Names of functions

A slot calls the function of its name unless a variable in scope has this name. The variables that are
given have no such names, and no definition can take one (`Environment.mem_iff_of_bind`); what a declared
parameter is called is not checked (`Environment.mem_iff_of_bindParams`). So along the calls that lead to
an evaluation (`Session.Reaches`) the names of functions that get into scope are those of declared
parameters (`Session.mem_iff_of_reaches`, by induction on the calls). That these evaluations are all in which
slots are resolved is said by `Session.tellsOf_render`, which follows the levels that are left. The main
statement is `Session.reserved_unless_declared`.
-/

namespace Stencil

/-! ## Names that get into scope -/

namespace Environment

variable {isFunction : Bytes → Bool} {name : Bytes}

/-- Definitions take no names of functions. -/
theorem mem_iff_of_bind {env bound : Environment} {sections : List Section}
    (h : env.bind isFunction sections = .ok bound) (hname : isFunction name) :
    name ∈ bound ↔ name ∈ env := by
  induction sections generalizing env with
  | nil =>
    cases h
    rfl
  | cons s rest ih =>
    obtain ⟨hs, hrest⟩ := bind_cons_eq_ok_iff.mp h
    have hne : s.boundName? ≠ some name := by
      cases s with
      | definition span d =>
        have hfree := (conflict?_definition_eq_none_iff.mp hs).1
        rintro hd
        obtain rfl : d.name = name := Option.some.inj hd
        simp [hfree] at hname
      | _ => exact nofun
    rw [ih hrest, mem_add, or_iff_right hne]

/-- A call takes the names of its declared parameters, and no others. -/
theorem mem_iff_of_bindParams {caller : Bytes} {env bound : Environment} {declared arguments : List Param}
    (h : env.bindParams caller declared arguments = .ok bound) :
    name ∈ bound ↔ name ∈ env ∨ name ∈ declared.map (·.name) := by
  induction declared generalizing env arguments with
  | nil =>
    cases h
    simp
  | cons p declared ih =>
    have hstep {v : Variable} {rest : List Param}
        (hrest : bindParams caller (env.insert p.name v) declared rest = .ok bound) :
        name ∈ bound ↔ name ∈ env ∨ name ∈ (p :: declared).map (·.name) := by
      rw [ih hrest, Std.ExtTreeMap.mem_insert, Std.LawfulEqCmp.compare_eq_iff_eq, List.map_cons,
        List.mem_cons, eq_comm (a := p.name), or_assoc, or_left_comm]
    cases arguments with
    | cons a arguments => exact hstep h
    | nil =>
      rw [bindParams] at h
      split at h
      · cases h
      · exact hstep h

end Environment

namespace Session

variable {σ : Type} (s : Session σ)

/-! ## What is evaluated -/

/-- In this scope the slot stands for a text that is rendered in this environment. -/
structure Expands (scope : Environment) (slot : Slot) (v : Variable) (env : Environment) : Prop where
  referent : s.referent? scope slot = some v
  kind : v.kind = .text
  raw : slot.raw = false
  bind : scope.bindParams slot.name v.params slot.params = .ok env

/-- Rendering a template at depth zero leads to this evaluation, through calls that declare these
names. -/
inductive Reaches (env : Environment) (template : Bytes) :
    (depth : Int) → (declared : List Bytes) → Environment → Bytes → Prop
  | start : Reaches env template 0 [] env template
  | call {depth : Int} {declared : List Bytes} {env₁ env₂ scope : Environment} {template₁ : Bytes}
      {d : Document} {slot : Span × Slot} {v : Variable}
      (h : Reaches env template depth declared env₁ template₁)
      (hopens : s.Opens depth env₁ template₁ d scope) (hslot : slot ∈ d.slots)
      (hexpands : s.Expands scope slot.2 v env₂) :
    Reaches env template (depth + 1) (declared ++ v.params.map (·.name)) env₂ v.value.write

variable {s} {env scope : Environment} {template : Bytes} {depth : Int} {d : Document}

/-! ## Where slots are resolved -/

variable (s) in
/-- Rendering the template leads to an evaluation in which a slot of this name stands for a variable of
this kind. -/
inductive Resolves (env : Environment) (template : Bytes) (name : Bytes) (kind : Kind) : Prop
  | mk {depth : Int} {declared : List Bytes} {env₁ scope : Environment} {template₁ : Bytes} {d : Document}
      {slot : Span × Slot} {v : Variable} (h : s.Reaches env template depth declared env₁ template₁)
      (hopens : s.Opens depth env₁ template₁ d scope) (hslot : slot ∈ d.slots)
      (hreferent : s.referent? scope slot.2 = some v) (hname : slot.2.name = name) (hkind : v.kind = kind)

variable (s) in
/-- The slots that are resolved on the way are those of the evaluations that it leads to. -/
abbrev TellsOf {α : Type} (env : Environment) (template : Bytes) (x : Action σ α) : Prop :=
  x.Tells fun event => ∀ shown name kind, event = .step shown (.resolved name kind) →
    s.Resolves env template name kind

variable {env₁ : Environment} {template₁ : Bytes} {declared : List Bytes}

/-- One slot, where the texts that slots stand for tell of nothing else. -/
theorem tellsOf_resolveSlot {expand : Expander σ} {slot : Span × Slot}
    (h : s.Reaches env template depth declared env₁ template₁) (hopens : s.Opens depth env₁ template₁ d scope)
    (hslot : slot ∈ d.slots)
    (hexpand : ∀ v env₂, s.Expands scope slot.2 v env₂ → s.TellsOf env template (expand env₂ v.value.write)) :
    s.TellsOf env template (s.resolveSlot expand scope slot.2) := by
  rw [resolveSlot]
  cases hreferent : s.referent? scope slot.2 with
  | none => exact .pure none
  | some v =>
    refine .tell_bind (fun shown name kind heq => ?_) (.bind ?_ fun value => .pure _)
    · cases heq
      exact ⟨h, hopens, hslot, hreferent, rfl, rfl⟩
    · unfold valueOf
      cases hkind : v.kind with
      | number => exact .pure _
      | unknown => exact .fail _
      | function =>
        refine (s.tells_callNamed _ _).mono fun event hevent shown name kind heq => ?_
        rw [heq] at hevent
        cases hevent
      | text =>
        dsimp only
        cases hraw : slot.2.raw with
        | true => exact .pure _
        | false =>
          exact .ofExcept_bind fun env₂ hbind =>
            .bind (hexpand v env₂ ⟨hreferent, hkind, hraw, hbind⟩) fun _ => .pure _

theorem tellsOf_fillSlot {expand : Expander σ} {text : Bytes} {slot : Span × Slot}
    (h : s.TellsOf env template (s.resolveSlot expand scope slot.2)) :
    s.TellsOf env template (s.fillSlot expand scope text slot) := by
  refine .bind h fun value? => ?_
  cases value? with
  | none => exact .pure text
  | some value =>
    refine .bind (.ofExcept _) fun computed => ?_
    dsimp only
    split
    · exact .fail _
    · split
      · exact .pure _
      · exact .fail _

/-- What is rendered one level deeper is led to as well, and has one level less. -/
theorem tellsOf_render {depth : Int} {declared : List Bytes} {env₁ : Environment} {template₁ : Bytes}
    (h : s.Reaches env template depth declared env₁ template₁) :
    s.TellsOf env template (s.render depth env₁ template₁) := by
  have hother {step : Event.Step} (hstep : ∀ name kind, step ≠ .resolved name kind) :
      ∀ shown name kind, Event.step s.debug step = .step shown (.resolved name kind) →
        s.Resolves env template name kind := by
    intro shown name kind heq
    exact absurd (Event.step.inj heq).2 (hstep name kind)
  have hrenders := s.renders_render depth env₁ template₁
  generalize s.render depth env₁ template₁ = x at hrenders ⊢
  cases hrenders with
  | refused failure => exact .fail failure
  | blank => exact .pure template₁
  | passedThrough => exact .tell_bind (hother nofun) (.pure template₁)
  | unread failure => exact .tell_bind (hother nofun) (.fail failure)
  | @opened d scope hopens =>
    have hlevels : s.levelsAt (depth + 1) < s.levelsAt depth := by
      rw [s.levelsAt_of_le hopens.depth_le]
      exact Nat.lt_succ_self _
    refine .tell_bind (hother nofun) (.tell_bind (hother nofun) (.bind ?_ fun text => .pure _))
    refine (Action.Tells.composes _).foldlM (fun text slot hslot => tellsOf_fillSlot ?_) d.text
    have hslot' : slot ∈ d.slots := List.mem_mergeSort.mp hslot
    exact tellsOf_resolveSlot h hopens hslot' fun v env₂ hexpands =>
      tellsOf_render (h.call hopens hslot' hexpands)
termination_by s.levelsAt depth

/-! ## The names in scope -/

theorem mem_iff_of_reaches {env₁ : Environment} {template₁ : Bytes} {declared : List Bytes}
    (h : s.Reaches env template depth declared env₁ template₁) (hopens : s.Opens depth env₁ template₁ d scope)
    {name : Bytes} (hname : s.isFunction name) : name ∈ scope ↔ name ∈ declared := by
  induction h generalizing d scope with
  | start =>
    rw [Environment.mem_iff_of_bind hopens.bind hname]
    refine iff_of_false (fun hmem => ?_) List.not_mem_nil
    simp [hopens.names rfl name hmem] at hname
  | call _ hcaller _ hexpands ih =>
    rw [Environment.mem_iff_of_bind hopens.bind hname, Environment.mem_iff_of_bindParams hexpands.bind,
      ih hcaller, List.mem_append]

theorem referent?_of_isFunction {slot : Slot} (hslot : slot.name ∉ scope) (hname : s.isFunction slot.name) :
    s.referent? scope slot =
      some { kind := .function, value := .text slot.name, params := slot.params } := by
  rw [referent?, Std.ExtTreeMap.getElem?_eq_none hslot]
  exact if_pos hname

/-- A slot that has the name of a function, which is not in scope, calls the function. -/
theorem resolveSlot_of_isFunction (expand : Expander σ) {slot : Slot} (hslot : slot.name ∉ scope)
    (hname : s.isFunction slot.name) :
    ∃ function, s.functions[slot.name]? = some function ∧
      s.resolveSlot expand scope slot = do
        s.note (.resolved slot.name .function)
        Action.tell (.called slot.name (slot.params.map (·.value)))
        let value ← function.call s (slot.params.map (·.value))
        return some value := by
  obtain ⟨function, hfunction⟩ : ∃ function, s.functions[slot.name]? = some function :=
    ⟨_, Std.ExtTreeMap.getElem?_eq_some_getElem (Std.ExtTreeMap.contains_iff_mem.mp hname)⟩
  refine ⟨function, hfunction, ?_⟩
  rw [resolveSlot, referent?_of_isFunction hslot hname]
  simp only [valueOf, callNamed, Value.write, hfunction, bind_assoc]

/-- Along all calls that rendering a template at depth zero leads to, the name of a function is in scope
if and only if a call on the way has declared a parameter of this name; where none has, a slot of this name
calls the function with its own arguments. And whatever the world is, the slots that are resolved on the way
are those of such evaluations: one that has the name of a function stands for a function, unless there is
such a parameter. -/
theorem reserved_unless_declared (s : Session σ) (env : Environment) (template : Bytes) :
    (∀ depth declared env₁ template₁ d scope, s.Reaches env template depth declared env₁ template₁ →
      s.Opens depth env₁ template₁ d scope →
        (∀ name, s.isFunction name → (name ∈ scope ↔ name ∈ declared)) ∧
          ∀ (expand : Expander σ) (slot : Slot), s.isFunction slot.name → slot.name ∉ declared →
            ∃ function, s.functions[slot.name]? = some function ∧
              s.resolveSlot expand scope slot = do
                s.note (.resolved slot.name .function)
                Action.tell (.called slot.name (slot.params.map (·.value)))
                let value ← function.call s (slot.params.map (·.value))
                return some value) ∧
    ∀ w shown name kind, .step shown (.resolved name kind) ∈ (s.render 0 env template w).events →
      s.isFunction name →
      ∃ depth declared env₁ template₁ d scope, ∃ slot ∈ d.slots, slot.2.name = name ∧
        s.Reaches env template depth declared env₁ template₁ ∧ s.Opens depth env₁ template₁ d scope ∧
          (name ∈ declared ∨ kind = .function) := by
  refine ⟨fun depth declared env₁ template₁ d scope h hopens => ⟨fun name hname => ?_,
    fun expand slot hname hslot => ?_⟩, fun w shown name kind hevent hname => ?_⟩
  · exact mem_iff_of_reaches h hopens hname
  · exact resolveSlot_of_isFunction expand (mt (mem_iff_of_reaches h hopens hname).mp hslot) hname
  · obtain ⟨h, hopens, hslot, hreferent, rfl, rfl⟩ := tellsOf_render .start w _ hevent shown name kind rfl
    rename_i depth declared env₁ scope template₁ d slot v
    refine ⟨depth, declared, env₁, template₁, d, scope, slot, hslot, rfl, h, hopens, ?_⟩
    by_cases hscope : slot.2.name ∈ scope
    · exact .inl ((mem_iff_of_reaches h hopens hname).mp hscope)
    · rw [referent?_of_isFunction hscope hname] at hreferent
      exact .inr (Option.some.inj hreferent ▸ rfl)

/-! A block that declares a parameter and calls a function, and a slot that stands for the block. -/

/-- What is in the block. -/
def callBody : Bytes := Bytes.ofString "\x7b\x7brandom('a')\x7d\x7d"

def callSlot : Slot where
  name := Bytes.ofString "random"
  params := [{ value := .text (Bytes.ofString "a") }]

/-- The slot that stands for the block. -/
def outerSlot : Slot where
  name := Bytes.ofString "f"
  params := [{ value := .text (Bytes.ofString "x") }]

/-- The variable that the block makes. -/
def callBlock (parameter : Bytes) : Variable where
  kind := .text
  value := .text callBody
  params := [{ name := parameter, required := true }]

/-- What the template is taken apart into; the block ends at the given place. -/
def callDocument (parameter : Bytes) (stop : Nat) : Document where
  text := Bytes.ofString "\x7b\x7bf('x')\x7d\x7d"
  sections :=
    [.definition ⟨0, stop⟩
        { name := Bytes.ofString "f", content := { kind := .text, value := .text callBody },
          params := [{ name := parameter, required := true }] },
      .slot ⟨0, 10⟩ outerSlot]

/-- The scope in the block. -/
def callScope (parameter : Bytes) : Environment :=
  ((∅ : Environment).insert (Bytes.ofString "f") (callBlock parameter)).insert parameter
    { kind := .text, value := .text (Bytes.ofString "x") }

theorem reaches_callBody {template parameter : Bytes} {stop : Nat}
    (hblank : Bytes.isBlank template = false)
    (hparse : Template.parse (Comment.strip template) = .ok (callDocument parameter stop)) :
    Reaches (σ := Unit) {} ∅ template 1 [parameter] (callScope parameter) callBody ∧
      Opens (σ := Unit) {} 1 (callScope parameter) callBody
        { text := callBody, sections := [.slot ⟨0, 15⟩ callSlot] } (callScope parameter) := by
  have hname : isFunction (σ := Unit) {} (Bytes.ofString "f") = false := by decide +kernel
  have houter : Opens (σ := Unit) {} 0 ∅ template (callDocument parameter stop)
      ((∅ : Environment).insert (Bytes.ofString "f") (callBlock parameter)) :=
    { names := by simp [NamesFree]
      nonblank := hblank
      depth_le := by decide
      parse := hparse
      bind := Environment.bind_cons_eq_ok_iff.mpr
        ⟨Environment.conflict?_definition_eq_none_iff.mpr ⟨hname, by simp⟩, rfl⟩ }
  have hslot : (⟨0, 10⟩, outerSlot) ∈ (callDocument parameter stop).slots := List.mem_singleton_self _
  have hexpands : Expands (σ := Unit) {} ((∅ : Environment).insert (Bytes.ofString "f") (callBlock parameter))
      outerSlot (callBlock parameter) (callScope parameter) :=
    { referent := by simp [referent?, outerSlot]
      kind := rfl
      raw := rfl
      bind := rfl }
  refine ⟨.call .start houter hslot hexpands, ?_⟩
  exact
    { names := nofun
      nonblank := by decide
      depth_le := by decide
      parse := by decide +kernel
      bind := rfl }

/-- A parameter that is called `p`. -/
theorem reserved_unless_declared_of_call :
    let template := Bytes.ofString "\x7b\x7bf(p)\x7d\x7d\x7b\x7brandom('a')\x7d\x7d\x7b\x7b/f\x7d\x7d\x7b\x7bf('x')\x7d\x7d"
    let p := Bytes.ofString "p"
    Reaches (σ := Unit) {} ∅ template 1 [p] (callScope p) callBody ∧
      isFunction (σ := Unit) {} callSlot.name ∧ callSlot.name ∉ [p] ∧
      ∀ expand : Expander Unit, ∃ function, ({} : Session Unit).functions[callSlot.name]? = some function ∧
        resolveSlot {} expand (callScope p) callSlot = do
          note {} (.resolved callSlot.name .function)
          Action.tell (.called callSlot.name (callSlot.params.map (·.value)))
          let value ← function.call {} (callSlot.params.map (·.value))
          return some value := by
  intro template p
  have hparse : Template.parse (Comment.strip template) = .ok (callDocument p 29) := by decide +kernel
  have hname : isFunction (σ := Unit) {} callSlot.name := by decide +kernel
  have hslot : callSlot.name ∉ [p] := by decide
  obtain ⟨hreaches, hopens⟩ := reaches_callBody (by decide) hparse
  have hreserved := (reserved_unless_declared {} ∅ template).1 _ _ _ _ _ _ hreaches hopens
  exact ⟨hreaches, hname, hslot, fun expand => hreserved.2 expand callSlot hname hslot⟩

/-- A parameter that is called like the function, which is not called then. -/
theorem not_reserved_of_parameter :
    let template := Bytes.ofString
      "\x7b\x7bf(random)\x7d\x7d\x7b\x7brandom('a')\x7d\x7d\x7b\x7b/f\x7d\x7d\x7b\x7bf('x')\x7d\x7d"
    let run := render (σ := Unit) {} 0 ∅ template { disk := .empty, host := () }
    (∃ depth declared env₁ template₁ d scope, Reaches (σ := Unit) {} ∅ template depth declared env₁ template₁ ∧
      Opens (σ := Unit) {} depth env₁ template₁ d scope ∧ callSlot.name ∈ scope ∧
        isFunction (σ := Unit) {} callSlot.name) ∧
      run.result = .ok (Bytes.ofString "x") ∧
        ∀ event ∈ run.events, event.isCall = false := by
  intro template run
  let p := callSlot.name
  have hparse : Template.parse (Comment.strip template) = .ok (callDocument p 34) := by decide +kernel
  have hname : isFunction (σ := Unit) {} p := by decide +kernel
  obtain ⟨hreaches, hopens⟩ := reaches_callBody (by decide) hparse
  have hrun : run.result = .ok (Bytes.ofString "x") ∧ ∀ event ∈ run.events, event.isCall = false := by
    decide +kernel
  exact ⟨⟨_, _, _, _, _, _, hreaches, hopens, Std.ExtTreeMap.mem_insert_self, hname⟩, hrun⟩

end Session

end Stencil
