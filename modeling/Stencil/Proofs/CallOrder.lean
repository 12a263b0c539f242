import Mathlib.Data.List.Basic
import Stencil.Proofs.Evaluations
import Stencil.Proofs.Rebuild
import Stencil.Proofs.Telling

/-!
# Which functions are called, and when

Rendering a document resolves its slots one after the other, those that start last first, and calls of
functions are made on the way and nowhere else. What resolving one slot comes to is said case by case
(`Session.Answers`): a function is called once, with the arguments of its variable or of the slot, the
calls of a text are those of rendering it one level deeper, and there are no others. A run over all slots
(`Session.Fills`) makes the calls of one slot behind those of another and ends at the first slot that fails.
That the run of a document is such a run is an induction on the slots (`Session.fills_foldlM`), and a
template of which a check fails makes none at all. The main statement is `Session.calls_slot_by_slot`.
-/

namespace Stencil

/-- The function that is called and its arguments, where an event is a call. -/
def Event.call? : Event → Option (Bytes × List Value)
  | .called name arguments => some (name, arguments)
  | _ => none

theorem Event.call?_of_isOfFiles {event : Event} (h : event.isOfFiles) : event.call? = none := by
  cases event <;> first | rfl | cases h

/-- How an action ended and which functions were called on the way, in order. -/
structure CallTrace (σ α : Type) where
  result : Except Failure α
  world : World σ
  calls : List (Bytes × List Value) := []

namespace CallTrace

variable {σ α β : Type}

def map (f : α → β) (t : CallTrace σ α) : CallTrace σ β := { t with result := t.result.map f }

theorem map_map {γ : Type} (f : α → β) (g : β → γ) (t : CallTrace σ α) :
    (t.map f).map g = t.map fun a => g (f a) := by
  cases t with
  | mk result world calls => cases result <;> rfl

/-- The trace of what is done behind other calls. -/
def behind (calls : List (Bytes × List Value)) (t : CallTrace σ α) : CallTrace σ α :=
  { t with calls := calls ++ t.calls }

end CallTrace

/-! ## Traces of actions -/

def Outcome.trace {σ α : Type} (o : Outcome σ α) : CallTrace σ α where
  result := o.result
  world := o.world
  calls := o.events.filterMap Event.call?

namespace Action

variable {σ α β : Type}

theorem trace_bind_of_error {x : Action σ α} {f : α → Action σ β} {w : World σ} {failure : Failure}
    (h : (x w).result = .error failure) :
    ((x >>= f) w).trace = ⟨.error failure, (x w).trace.world, (x w).trace.calls⟩ := by
  show (Action.bind x f w).trace = _
  rw [Action.bind]
  rcases hrun : x w with ⟨result, w', events⟩
  obtain rfl : result = .error failure := by rw [← h, hrun]
  rfl

theorem trace_bind_of_ok {x : Action σ α} {f : α → Action σ β} {w : World σ} {a : α}
    (h : (x w).result = .ok a) :
    ((x >>= f) w).trace = (f a (x w).trace.world).trace.behind (x w).trace.calls := by
  show (Action.bind x f w).trace = _
  rw [Action.bind]
  rcases hrun : x w with ⟨result, w', events⟩
  obtain rfl : result = .ok a := by rw [← h, hrun]
  simp [Outcome.trace, CallTrace.behind]

theorem trace_bind_pure (x : Action σ α) (f : α → β) (w : World σ) :
    ((do let a ← x; return f a) w).trace = (x w).trace.map f := by
  cases h : (x w).result with
  | error failure =>
    rw [trace_bind_of_error h]
    simp [CallTrace.map, Outcome.trace, h, Except.map]
  | ok a =>
    rw [trace_bind_of_ok h]
    simp [CallTrace.map, CallTrace.behind, Outcome.trace, h, Except.map, pure, Action.pure]

theorem trace_tell_bind {event : Event} (h : event.call? = none) (x : Action σ α) (w : World σ) :
    ((do tell event; x) w).trace = (x w).trace := by
  rw [trace_bind_of_ok rfl]
  simp [CallTrace.behind, Outcome.trace, tell, h]

theorem trace_ofExcept (x : Except Failure α) (w : World σ) :
    (ofExcept x w).trace = ⟨x, w, []⟩ := by
  cases x <;> rfl

end Action

/-! ## The order of the slots -/

/-- These are the slots of the document in the order in which they are filled in: those that start last in
front, and those that start in one place as they are listed. -/
structure Document.FromEnd (d : Document) (slots : List (Span × Slot)) : Prop where
  descending : slots.Pairwise fun a b => b.1.start ≤ a.1.start
  stable (start : Nat) : (slots.filter fun a => a.1.start = start) = d.slots.filter fun a => a.1.start = start

theorem Document.fromEnd_slotsFromEnd (d : Document) : d.FromEnd d.slotsFromEnd where
  descending := d.pairwise_slotsFromEnd
  stable start := by
    have hperm := (List.mergeSort_perm d.slots fun a b => b.1.start ≤ a.1.start).filter
      fun a => decide (a.1.start = start)
    have hsame : (d.slots.filter fun a => a.1.start = start).Pairwise fun a b =>
        decide (b.1.start ≤ a.1.start) = true := by
      refine List.pairwise_of_forall_mem_list fun a ha b hb => ?_
      have ha' := of_decide_eq_true (List.mem_filter.mp ha).2
      have hb' := of_decide_eq_true (List.mem_filter.mp hb).2
      simp [ha', hb']
    have hsublist := (List.sublist_mergeSort (fun a b c => by
      simp only [decide_eq_true_eq]
      omega) (fun a b => by
      simp only [Bool.or_eq_true, decide_eq_true_eq]
      omega) hsame (List.filter_sublist ..)).filter fun a => decide (a.1.start = start)
    simp only [List.filter_filter, Bool.and_self] at hsublist
    exact (hsublist.eq_of_length hperm.length_eq.symm).symm

namespace Session

variable {σ : Type}

/-! ## One slot -/

/-- A text with the value of a slot in the place of the slot. A slot whose name stands for nothing stays as
it is. -/
def putIn (slot : Span × Slot) (text : Bytes) : Option Value → Except Failure Bytes
  | none => .ok text
  | some value => do
    let value ← slot.2.compute value
    let outside : Failure :=
      { kind := .invariantViolation, name := slot.2.name,
        detail := Bytes.ofString "slot span lies outside the text" }
    if slot.1.stop < slot.1.start then .error outside
    else
      match Bytes.splice? text value.write slot.1.start slot.1.stop with
      | some text => .ok text
      | none => .error outside

variable (s : Session σ)

theorem fillSlot_eq_putIn (expand : Expander σ) (env : Environment) (text : Bytes) (slot : Span × Slot) :
    s.fillSlot expand env text slot =
      s.resolveSlot expand env slot.2 >>= fun value? => Action.ofExcept (putIn slot text value?) := by
  rw [fillSlot]
  congr 1
  funext value?
  cases value? with
  | none => rfl
  | some value =>
    cases hvalue : slot.2.compute value with
    | error failure => simp only [putIn, hvalue]; rfl
    | ok computed =>
      simp only [putIn, hvalue]
      show (if _ then _ else _) = Action.ofExcept (if _ then _ else _)
      split
      · rfl
      · cases Bytes.splice? text computed.write slot.1.start slot.1.stop <;> rfl

/-- A function is called once, with these arguments, and its value is that of a slot. -/
def callOnce (name : Bytes) (f : Function σ) (arguments : List Value) (w : World σ) :
    CallTrace σ (Option Value) where
  result := (f.call s arguments w).result.map some
  world := (f.call s arguments w).world
  calls := [(name, arguments)]

/-- A function of the host is applied once, to its arguments and to the state that the host has come to. -/
theorem callOnce_host (name : Bytes) (g : HostFunction σ) (arguments : List Value) (w : World σ) :
    s.callOnce name (.host g) arguments w =
      { result := (g arguments w.host).1.map some
        world := { w with host := (g arguments w.host).2 }
        calls := [(name, arguments)] } := rfl

/-- The next number that is drawn picks one of the arguments. -/
theorem callOnce_pick (name : Bytes) {arguments : List Value} {w : World σ}
    (hlt : w.draws 0 % arguments.length < arguments.length) :
    s.callOnce name .pick arguments w =
      { result := .ok (some arguments[w.draws 0 % arguments.length])
        world := { w with draws := fun n => w.draws (n + 1) }
        calls := [(name, arguments)] } := by
  have hempty : arguments.isEmpty = false := by
    cases arguments with
    | nil => cases hlt
    | cons => rfl
  have hcall : Function.call s arguments (.pick : Function σ) =
      Action.draw >>= fun n => pure (arguments.getD (n % arguments.length) default) := by
    rw [Function.call, hempty]
    rfl
  have hpicked : arguments.getD (w.draws 0 % arguments.length) default =
      arguments[w.draws 0 % arguments.length] := by
    rw [List.getD_eq_getElem?_getD, List.getElem?_eq_getElem hlt, Option.getD_some]
  rw [callOnce, hcall, ← hpicked]
  rfl

/-- Each of the arguments can be picked, and nothing else. -/
theorem exists_draws_pick (name : Bytes) (arguments : List Value) (value : Value) (w : World σ) :
    (∃ draws, (s.callOnce name .pick arguments { w with draws }).result = .ok (some value)) ↔
      value ∈ arguments := by
  constructor
  · rintro ⟨draws, hresult⟩
    cases arguments with
    | nil => cases hresult
    | cons first rest =>
      rw [s.callOnce_pick name (Nat.mod_lt _ (List.length_pos_iff.mpr (List.cons_ne_nil _ _)))] at hresult
      cases hresult
      exact List.getElem_mem _
  · intro hmem
    obtain ⟨k, hk, hvalue⟩ := List.getElem_of_mem hmem
    have hmod : k % arguments.length = k := Nat.mod_eq_of_lt hk
    refine ⟨fun _ => k, ?_⟩
    rw [s.callOnce_pick name (by rwa [hmod])]
    simp only [hmod, hvalue]

/-- What resolving a slot comes to in this scope, which is that of a document at this depth. -/
inductive Answers (depth : Int) (scope : Environment) (slot : Slot) (w : World σ) :
    CallTrace σ (Option Value) → Prop
  | nothing (hscope : scope[slot.name]? = none) (hname : s.functions[slot.name]? = none) :
    Answers depth scope slot w ⟨.ok none, w, []⟩
  | inlineCall {f : Function σ} (hscope : scope[slot.name]? = none)
      (hname : s.functions[slot.name]? = some f) :
    Answers depth scope slot w (s.callOnce slot.name f (slot.params.map (·.value)) w)
  | number {v : Variable} (hscope : scope[slot.name]? = some v) (hkind : v.kind = .number) :
    Answers depth scope slot w ⟨.ok (some v.value), w, []⟩
  | rawText {v : Variable} (hscope : scope[slot.name]? = some v) (hkind : v.kind = .text)
      (hraw : slot.raw) :
    Answers depth scope slot w ⟨.ok (some v.value), w, []⟩
  | missingArgument {v : Variable} {failure : Failure} (hscope : scope[slot.name]? = some v)
      (hkind : v.kind = .text) (hraw : slot.raw = false)
      (hbind : scope.bindParams slot.name v.params slot.params = .error failure) :
    Answers depth scope slot w ⟨.error failure, w, []⟩
  | nested {v : Variable} {env : Environment} (hscope : scope[slot.name]? = some v)
      (hkind : v.kind = .text) (hraw : slot.raw = false)
      (hbind : scope.bindParams slot.name v.params slot.params = .ok env) :
    Answers depth scope slot w
      ((s.render (depth + 1) env v.value.write w).trace.map fun text => some (.text text))
  | call {v : Variable} {f : Function σ} (hscope : scope[slot.name]? = some v)
      (hkind : v.kind = .function) (hname : s.functions[v.value.write]? = some f) :
    Answers depth scope slot w (s.callOnce v.value.write f (v.params.map (·.value)) w)
  | unknownFunction {v : Variable} (hscope : scope[slot.name]? = some v) (hkind : v.kind = .function)
      (hname : s.functions[v.value.write]? = none) :
    Answers depth scope slot w ⟨.error { kind := .unknownFunction, name := v.value.write }, w, []⟩
  | unknownKind {v : Variable} (hscope : scope[slot.name]? = some v) (hkind : v.kind = .unknown) :
    Answers depth scope slot w
      ⟨.error
        { kind := .invariantViolation, name := slot.name,
          detail := Bytes.ofString "variable should never be unknown type, only params can be" }, w, []⟩

/-- The body of a function calls no function. -/
theorem trace_callNamed {name : Bytes} {f : Function σ} (h : s.functions[name]? = some f)
    (arguments : List Value) (w : World σ) :
    (s.callNamed name arguments w).trace.map some = s.callOnce name f arguments w := by
  have hcalls : (f.call s arguments w).events.filterMap Event.call? = [] :=
    List.filterMap_eq_nil_iff.mpr fun event hevent =>
      Event.call?_of_isOfFiles (s.tells_call arguments f w event hevent)
  rw [callNamed, h]
  dsimp only
  rw [Action.trace_bind_of_ok rfl]
  simp [callOnce, CallTrace.map, CallTrace.behind, Outcome.trace, Action.tell, Event.call?, hcalls]

theorem answers_resolveSlot (depth : Int) (scope : Environment) (slot : Slot) (w : World σ) :
    s.Answers depth scope slot w (s.resolveSlot (s.render (depth + 1)) scope slot w).trace := by
  have hresolve {v : Variable} (hreferent : s.referent? scope slot = some v) :
      (s.resolveSlot (s.render (depth + 1)) scope slot w).trace =
        (s.valueOf (s.render (depth + 1)) scope slot v w).trace.map some := by
    rw [resolveSlot, hreferent]
    dsimp only
    rw [Action.trace_tell_bind rfl, Action.trace_bind_pure]
  cases hscope : scope[slot.name]? with
  | none =>
    cases hname : s.functions[slot.name]? with
    | none =>
      have hreferent : s.referent? scope slot = none := by
        rw [referent?, hscope]
        simp [isFunction, Std.ExtTreeMap.contains_eq_isSome_getElem?, hname]
      rw [resolveSlot, hreferent]
      exact .nothing hscope hname
    | some f =>
      have hreferent : s.referent? scope slot =
          some { kind := .function, value := .text slot.name, params := slot.params } := by
        rw [referent?, hscope]
        simp [isFunction, Std.ExtTreeMap.contains_eq_isSome_getElem?, hname]
      rw [hresolve hreferent, valueOf]
      dsimp only
      rw [Value.write, s.trace_callNamed hname]
      exact .inlineCall hscope hname
  | some v =>
    have hreferent : s.referent? scope slot = some v := by rw [referent?, hscope]
    rw [hresolve hreferent, valueOf]
    cases hkind : v.kind with
    | number => exact .number hscope hkind
    | unknown => exact .unknownKind hscope hkind
    | function =>
      dsimp only
      cases hname : s.functions[v.value.write]? with
      | none =>
        rw [callNamed, hname]
        exact .unknownFunction hscope hkind hname
      | some f =>
        rw [s.trace_callNamed hname]
        exact .call hscope hkind hname
    | text =>
      dsimp only
      cases hraw : slot.raw with
      | true => exact .rawText hscope hkind hraw
      | false =>
        rw [if_neg Bool.false_ne_true]
        cases hbind : scope.bindParams slot.name v.params slot.params with
        | error failure => exact .missingArgument hscope hkind hraw hbind
        | ok env =>
          have hnested : s.Answers depth scope slot w _ := .nested hscope hkind hraw hbind
          rw [Action.ofExcept, pure_bind, Action.trace_bind_pure, CallTrace.map_map]
          exact hnested

/-! ## All slots -/

/-- What filling these slots in comes to, one after the other: the calls of one slot are made behind those
of the slots in front of it, and the first slot that fails ends the run. -/
inductive Fills (depth : Int) (scope : Environment) :
    List (Span × Slot) → Bytes → World σ → CallTrace σ Bytes → Prop
  | done {text : Bytes} {w : World σ} : Fills depth scope [] text w ⟨.ok text, w, []⟩
  | stopped {slot : Span × Slot} {rest : List (Span × Slot)} {text : Bytes} {w : World σ}
      {t : CallTrace σ (Option Value)} {failure : Failure} (hslot : s.Answers depth scope slot.2 w t)
      (hfails : t.result >>= putIn slot text = .error failure) :
    Fills depth scope (slot :: rest) text w ⟨.error failure, t.world, t.calls⟩
  | filled {slot : Span × Slot} {rest : List (Span × Slot)} {text next : Bytes} {w : World σ}
      {t : CallTrace σ (Option Value)} {more : CallTrace σ Bytes} (hslot : s.Answers depth scope slot.2 w t)
      (hput : t.result >>= putIn slot text = .ok next) (hrest : Fills depth scope rest next t.world more) :
    Fills depth scope (slot :: rest) text w (more.behind t.calls)

theorem trace_fillSlot (expand : Expander σ) (scope : Environment) (text : Bytes) (slot : Span × Slot)
    (w : World σ) :
    (s.fillSlot expand scope text slot w).trace =
      { (s.resolveSlot expand scope slot.2 w).trace with
        result := (s.resolveSlot expand scope slot.2 w).result >>= putIn slot text } := by
  rw [fillSlot_eq_putIn]
  cases h : (s.resolveSlot expand scope slot.2 w).result with
  | error failure => exact Action.trace_bind_of_error h
  | ok value? =>
    rw [Action.trace_bind_of_ok h, Action.trace_ofExcept]
    simp [CallTrace.behind]
    rfl

theorem fills_foldlM (depth : Int) (scope : Environment) (slots : List (Span × Slot)) (text : Bytes)
    (w : World σ) :
    s.Fills depth scope slots text w
      (slots.foldlM (s.fillSlot (s.render (depth + 1)) scope) text w).trace := by
  induction slots generalizing text w with
  | nil => exact .done
  | cons slot rest ih =>
    have hslot := s.answers_resolveSlot depth scope slot.2 w
    have hfill := s.trace_fillSlot (s.render (depth + 1)) scope text slot w
    have hresult := congrArg CallTrace.result hfill
    rw [List.foldlM_cons]
    cases hput : (s.resolveSlot (s.render (depth + 1)) scope slot.2 w).result >>= putIn slot text with
    | error failure =>
      rw [Action.trace_bind_of_error (hresult.trans hput), hfill]
      exact .stopped hslot hput
    | ok next =>
      rw [Action.trace_bind_of_ok (hresult.trans hput), hfill]
      exact .filled hslot hput (ih next _)

/-! ## Templates -/

/-- A template that is not opened is not looked into further, whatever the world is. -/
theorem render_of_not_opens {depth : Int} {env : Environment} {template : Bytes}
    (h : ∀ d scope, ¬s.Opens depth env template d scope) :
    ∃ result, (s.render depth env template).Settled result ∧
      ((∃ failure, result = .error failure) ∨
        result = .ok template ∧ (Bytes.isBlank template ∨ s.limit < depth)) := by
  have hrenders := s.renders_render depth env template
  generalize s.render depth env template = x at hrenders
  cases hrenders with
  | refused failure => exact ⟨_, .fail failure, .inl ⟨failure, rfl⟩⟩
  | blank _ hblank => exact ⟨_, .pure template, .inr ⟨rfl, .inl hblank⟩⟩
  | passedThrough _ _ hdepth => exact ⟨_, .tell_bind rfl (.pure template), .inr ⟨rfl, .inr hdepth⟩⟩
  | unread failure => exact ⟨_, .tell_bind rfl (.fail failure), .inl ⟨failure, rfl⟩⟩
  | opened hopens => exact absurd hopens (h _ _)

theorem trace_render_of_opens {depth : Int} {env scope : Environment} {template : Bytes} {d : Document}
    (h : s.Opens depth env template d scope) (w : World σ) :
    (s.render depth env template w).trace = (s.renderDocument depth env d w).trace := by
  have hcheck : s.checkNames depth env = pure () := by
    rcases s.checkNames_cases depth env with ⟨-, hcheck⟩ | ⟨hnames, -⟩
    · exact hcheck
    · exact absurd h.names hnames
  rw [s.render_of_strip hcheck h.depth_le h.nonblank h.parse, Action.trace_tell_bind rfl, renderDocument]

theorem trace_renderDocument {env scope : Environment} {d : Document}
    (h : env.bind s.isFunction d.sections = .ok scope) (depth : Int) (w : World σ) :
    (s.renderDocument depth env d w).trace =
      (d.slotsFromEnd.foldlM (s.fillSlot (s.render (depth + 1)) scope) d.text w).trace.map normalize := by
  rw [renderDocument, s.renderDocumentWith_of_bind _ depth h, Action.trace_tell_bind rfl,
    Action.trace_bind_pure]

/-- A template that is not opened, because its names are refused, or it cannot be taken apart, or its
definitions cannot be bound, and a document whose definitions cannot be bound leave the world alone: no
function is called and no file is read. Otherwise the calls are those of the slots, the one that starts
last first and each in the one scope of the document, up to the first slot that fails and ends the run with
its failure. A call of a function of the host applies it once, to the arguments of the call and to the state that
the host has come to, of which it makes the next one; it changes nothing else. -/
theorem calls_slot_by_slot (s : Session σ) (depth : Int) (env : Environment) :
    (∀ template, (∀ d scope, ¬s.Opens depth env template d scope) →
      ∃ result, (s.render depth env template).Settled result ∧
        ((∃ failure, result = .error failure) ∨
          result = .ok template ∧ (Bytes.isBlank template ∨ s.limit < depth))) ∧
    (∀ template d scope, s.Opens depth env template d scope →
      ∀ w, (s.render depth env template w).trace = (s.renderDocument depth env d w).trace) ∧
    (∀ d failure, env.bind s.isFunction d.sections = .error failure →
      (s.renderDocument depth env d).Settled (.error failure.1)) ∧
    (∀ d scope, env.bind s.isFunction d.sections = .ok scope →
      ∃ slots, d.FromEnd slots ∧ ∀ w, ∃ t, s.Fills depth scope slots d.text w t ∧
        (s.renderDocument depth env d w).trace = t.map normalize) ∧
    ∀ (name : Bytes) (g : HostFunction σ) (arguments : List Value) (w : World σ),
      s.callOnce name (.host g) arguments w =
        { result := (g arguments w.host).1.map some
          world := { w with host := (g arguments w.host).2 }
          calls := [(name, arguments)] } := by
  refine ⟨fun template h => s.render_of_not_opens h, fun template d scope h => s.trace_render_of_opens h,
    fun d failure h => ?_, fun d scope h => ⟨d.slotsFromEnd, d.fromEnd_slotsFromEnd, fun w => ?_⟩,
    s.callOnce_host⟩
  · have hbind : s.bind env d = Action.fail failure.1 := by rw [Session.bind, h]; rfl
    rw [renderDocument, renderDocumentWith, hbind]
    exact .fail failure.1
  · exact ⟨_, s.fills_foldlM depth scope d.slotsFromEnd d.text w, s.trace_renderDocument h depth w⟩

/-- A function of the host that remembers the arguments of its calls, and gives how many calls there were
before. -/
def record : HostFunction (List (List Value)) := fun arguments calls =>
  (.ok (.text (Bytes.ofNat calls.length)), calls ++ [arguments])

def recording : Session (List (List Value)) where
  functions := (Registry.builtin _).insert (Bytes.ofString "next") (.host record)

/-- A template that cannot be taken apart, one with two calls, of which that which stands last is made
first, and a document that defines the name of a function. -/
theorem calls_slot_by_slot_of_two_calls :
    let s := recording
    let next := Bytes.ofString "next"
    let unread := Bytes.ofString "\x7b\x7b"
    let template := Bytes.ofString "\x7b\x7bnext('a')\x7d\x7d\x7b\x7bnext()\x7d\x7d"
    let d : Document :=
      { text := template
        sections :=
          [.slot ⟨0, 13⟩ { name := next, params := [{ value := .text (Bytes.ofString "a") }] },
            .slot ⟨13, 23⟩ { name := next }] }
    let conflicting : Document :=
      { text := []
        sections :=
          [.definition ⟨0, 12⟩ { name := next, content := { kind := .text, value := .text [] } }] }
    let failure : Failure := { kind := .nameConflictWithFunction, name := next }
    (∃ result, (s.render 0 ∅ unread).Settled result ∧
      ((∃ failure, result = .error failure) ∨
        result = .ok unread ∧ (Bytes.isBlank unread ∨ s.limit < 0))) ∧
    (∀ w, (s.render 0 ∅ template w).trace = (s.renderDocument 0 ∅ d w).trace) ∧
    (s.renderDocument 0 ∅ conflicting).Settled (.error failure) ∧
    (∃ slots, d.FromEnd slots ∧ ∀ w, ∃ t, s.Fills 0 ∅ slots d.text w t ∧
      (s.renderDocument 0 ∅ d w).trace = t.map normalize) ∧
    (∀ arguments w, s.callOnce next (.host record) arguments w =
      { result := .ok (some (.text (Bytes.ofNat w.host.length)))
        world := { w with host := w.host ++ [arguments] }
        calls := [(next, arguments)] }) ∧
    let run := s.renderDocument 0 ∅ d { disk := .empty, host := [] }
    run.result = .ok (Bytes.ofString "10") ∧ run.world.host = [[], [.text (Bytes.ofString "a")]] ∧
      run.trace.calls = [(next, []), (next, [.text (Bytes.ofString "a")])] := by
  intro s next unread template d conflicting failure
  obtain ⟨hunread, hparse, hname⟩ : (Template.parse (Comment.strip unread)).toOption = none ∧
      Template.parse (Comment.strip template) = .ok d ∧ s.isFunction next := by
    decide +kernel
  have hclosed (d' : Document) (scope : Environment) : ¬s.Opens 0 ∅ unread d' scope := fun h => by
    simp [h.parse, Except.toOption] at hunread
  have hopens : s.Opens 0 ∅ template d ∅ :=
    { names := by simp [NamesFree]
      nonblank := by decide
      depth_le := by decide
      parse := hparse
      bind := rfl }
  have hconflict : (∅ : Environment).bind s.isFunction conflicting.sections = .error (failure, ∅) := by
    simp [conflicting, Environment.bind, Environment.conflict?, hname, failure]
  obtain ⟨hrefused, hopened, hunbound, hbound, hhost⟩ := calls_slot_by_slot s 0 ∅
  refine ⟨hrefused unread hclosed, hopened template d ∅ hopens, hunbound conflicting _ hconflict,
    hbound d ∅ hopens.bind, hhost next record, ?_⟩
  have hslots : d.slotsFromEnd = [d.slots[1], d.slots[0]] := Document.slotsFromEnd_eq (by decide) (by decide)
  rw [renderDocument, renderDocumentWith, hslots]
  decide +kernel

end Session

end Stencil
