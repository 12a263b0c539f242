import Stencil.Proofs.ParsedDocuments

/-!
# Failures that no template reaches

Two kinds of failure are about documents that cannot have been parsed: a section of no known kind, and
a slot outside of its text or a variable of no known kind (`Failure.Internal`). Binding definitions and
parameters keeps the kinds of all variables known (`Environment.known_of_bind`, `known_of_bindParams`),
functions fail in ways of their own (`Function.sound_call`), and the slots of a document that was parsed
can be filled in from the last to the first whatever takes their places. Each of the functions that
evaluate a template hands these facts down one level (`sound_renderDocumentWith`), and
`sound_renderNested` follows the levels. The main statement is `render_not_internal`.
-/

namespace Stencil

/-- A failure that is about the document or the variables of an evaluation, not about its template. -/
def Failure.Internal (f : Failure) : Prop :=
  f.kind = .invariantViolation ∨ f.kind = .unknownSectionKind

instance (f : Failure) : Decidable f.Internal := inferInstanceAs (Decidable (_ ∨ _))

/-! ## Known kinds -/

namespace Environment

/-- Each variable is of a known kind. -/
def Known (env : Environment) : Prop :=
  ∀ (name : Bytes) (v : Variable), env[name]? = some v → v.kind ≠ .unknown

theorem known_empty : Known ∅ := by
  intro name v hv
  simp at hv

theorem Known.insert {env : Environment} (h : env.Known) {v : Variable} (hv : v.kind ≠ .unknown)
    (name : Bytes) : Known (env.insert name v) := by
  intro other u hu
  rw [Std.ExtTreeMap.getElem?_insert] at hu
  split at hu
  · cases hu
    exact hv
  · exact h other u hu

theorem Known.add {env : Environment} (h : env.Known) {s : Section} (hs : s.Bindable) :
    (env.add s).Known := by
  cases s with
  | definition span d => exact h.insert hs d.name
  | _ => exact h

theorem known_of_bind {isFunction : Bytes → Bool} {env env' : Environment} {sections : List Section}
    (henv : env.Known) (hsections : ∀ s ∈ sections, s.Bindable)
    (h : env.bind isFunction sections = .ok env') : env'.Known := by
  induction sections generalizing env with
  | nil =>
    cases h
    exact henv
  | cons s rest ih =>
    rw [List.forall_mem_cons] at hsections
    rw [bind] at h
    split at h
    · cases h
    · exact ih (henv.add hsections.1) hsections.2 h

theorem not_internal_of_conflict? {isFunction : Bytes → Bool} {env : Environment} {s : Section}
    {failure : Failure} (hs : s.Bindable) (h : env.conflict? isFunction s = some failure) :
    ¬failure.Internal := by
  cases s with
  | text span => cases h
  | slot span slot => cases h
  | unknown code name => cases hs
  | definition span d =>
    rw [conflict?] at h
    split at h
    · cases h
      simp [Failure.Internal]
    · split at h
      · cases h
        simp [Failure.Internal]
      · cases h

theorem not_internal_of_bind {isFunction : Bytes → Bool} {env env' : Environment}
    {sections : List Section} {failure : Failure} (hsections : ∀ s ∈ sections, s.Bindable)
    (h : env.bind isFunction sections = .error (failure, env')) : ¬failure.Internal := by
  induction sections generalizing env with
  | nil => cases h
  | cons s rest ih =>
    rw [List.forall_mem_cons] at hsections
    rw [bind] at h
    split at h
    · rename_i failure' hconflict
      cases h
      exact not_internal_of_conflict? hsections.1 hconflict
    · exact ih hsections.2 h

theorem known_of_bindParams {caller : Bytes} {env env' : Environment} {declared arguments : List Param}
    (henv : env.Known) (h : env.bindParams caller declared arguments = .ok env') : env'.Known := by
  induction declared generalizing env arguments with
  | nil =>
    cases h
    exact henv
  | cons p declared ih =>
    cases arguments with
    | cons a arguments => exact ih (henv.insert (Variable.kind_ofValue a.value) p.name) h
    | nil =>
      rw [bindParams] at h
      split at h
      · cases h
      · exact ih (henv.insert (Variable.kind_ofValue p.value) p.name) h

theorem not_internal_of_bindParams {caller : Bytes} {env : Environment}
    {declared arguments : List Param} {failure : Failure}
    (h : env.bindParams caller declared arguments = .error failure) : ¬failure.Internal := by
  induction declared generalizing env arguments with
  | nil => cases h
  | cons p declared ih =>
    cases arguments with
    | cons a arguments => exact ih h
    | nil =>
      rw [bindParams] at h
      split at h
      · cases h
        simp [Failure.Internal]
      · exact ih h

end Environment

variable {σ α β : Type}

/-- An action that can give any result, and of which no failure is internal. -/
abbrev Action.Sound (x : Action σ α) : Prop := x.Ends (fun _ => True) fun failure => ¬failure.Internal

open Stencil.Action (Sound Ends)

/-! ## Functions -/

/-- None of the functions that are always there is one of the host. -/
theorem Registry.getElem?_builtin_ne_host (name : Bytes) (f : HostFunction σ) :
    (Registry.builtin σ)[name]? ≠ some (.host f) := by
  simp only [builtin, Std.ExtTreeMap.ofList_eq_insertMany_empty, Std.ExtTreeMap.insertMany_cons,
    Std.ExtTreeMap.insertMany_nil, Std.ExtTreeMap.getElem?_insert]
  split
  · simp
  · split
    · simp
    · split <;> simp

namespace Session

/-- No function of the host reports an internal failure of its own accord. -/
def HostsSound (s : Session σ) : Prop :=
  ∀ (name : Bytes) (f : HostFunction σ), s.functions[name]? = some (.host f) →
    ∀ arguments state failure, (f arguments state).1 = .error failure → ¬failure.Internal

theorem sound_read (s : Session σ) (path : Bytes) : Sound (s.read path) := by
  refine .world_bind fun w => ?_
  split
  · exact .pure trivial
  · split
    · exact .remember_bind (.pure trivial)
    · exact .tell_bind (.pure trivial)

theorem sound_list (s : Session σ) (path : Bytes) : Sound (s.list path) := by
  refine .world_bind fun w => ?_
  split
  · exact .tell_bind (.pure trivial)
  · exact .tell_bind (.pure trivial)

theorem sound_status (s : Session σ) (path : Bytes) : Sound (s.status path) :=
  .world_bind fun _ => .pure trivial

end Session

namespace Function

theorem sound_failed (function detail : Bytes) :
    Sound (Action.fail (failed function detail) : Action σ α) :=
  .fail (by simp [failed, Failure.Internal])

theorem sound_contentFor (function : Bytes) (s : Session σ) (path : Bytes) :
    Sound (contentFor function s path) := by
  refine (s.sound_read path).bind fun content? _ => ?_
  cases content? with
  | some content => exact .pure trivial
  | none => exact sound_failed _ _

theorem sound_loadFiles (s : Session σ) (arguments : List Value) : Sound (loadFiles s arguments) := by
  unfold loadFiles
  dsimp only
  split
  · exact sound_failed _ _
  · refine Ends.bind (Ends.mapM fun argument _ => ?_) fun contents _ => .pure trivial
    refine (s.sound_status _).bind fun status _ => ?_
    split
    · exact sound_failed _ _
    · exact sound_contentFor _ _ _

theorem sound_loadFrom (s : Session σ) (directory extension : Bytes) :
    Sound (loadFrom s directory extension) := by
  refine (s.sound_list directory).bind fun files? _ => ?_
  cases files? with
  | none => exact sound_failed _ _
  | some files =>
    refine Ends.bind (Ends.mapM fun file _ => ?_) fun entries _ => .pure trivial
    exact (sound_contentFor _ _ _).bind fun content _ => .pure trivial

theorem sound_call (s : Session σ) (arguments : List Value) {f : Function σ}
    (hf : ∀ g, f = .host g →
      ∀ arguments state failure, (g arguments state).1 = .error failure → ¬failure.Internal) :
    Sound (f.call s arguments) := by
  cases f with
  | load => exact sound_loadFiles s arguments
  | loadDirectory =>
    match arguments with
    | [] => exact sound_failed _ _
    | [directory] => exact sound_loadFrom s _ _
    | [directory, extension] => exact sound_loadFrom s _ _
    | _ :: _ :: _ :: _ => exact sound_failed _ _
  | pick =>
    show Sound (if arguments.isEmpty then _ else _)
    split
    · exact sound_failed _ _
    · exact .draw_bind fun n => .pure trivial
  | host g => exact ⟨fun _ _ _ => trivial, fun w failure he => hf g rfl arguments w.host failure he⟩

end Function

/-! ## Evaluation -/

namespace Session

variable {s : Session σ}

theorem sound_callNamed (hs : s.HostsSound) (name : Bytes) (arguments : List Value) :
    Sound (s.callNamed name arguments) := by
  unfold callNamed
  split
  · exact .fail (by simp [Failure.Internal])
  · rename_i f hf
    exact .tell_bind (Function.sound_call s arguments fun g hg => hs name g (hg ▸ hf))

theorem kind_of_referent? {env : Environment} (henv : env.Known) {slot : Slot} {v : Variable}
    (h : s.referent? env slot = some v) : v.kind ≠ .unknown := by
  unfold referent? at h
  split at h
  · rename_i u hu
    cases h
    exact henv _ _ hu
  · split at h
    · cases h
      simp
    · cases h

/-- How templates are rendered one level deeper is sound for every environment of known kinds. -/
def SoundExpander (expand : Expander σ) : Prop :=
  ∀ env : Environment, env.Known → ∀ template, Sound (expand env template)

variable {expand : Expander σ}

/-- Binding the parameters of a template keeps the kinds of the variables known. -/
theorem ends_bindParams (caller : Bytes) {env : Environment} (henv : env.Known)
    (declared arguments : List Param) :
    Ends Environment.Known (fun failure => ¬failure.Internal)
      (Action.ofExcept (env.bindParams caller declared arguments) : Action σ Environment) :=
  .ofExcept (fun _ h => Environment.known_of_bindParams henv h)
    fun _ h => Environment.not_internal_of_bindParams h

/-- Binding the definitions of a document keeps the kinds of the variables known. -/
theorem ends_bind {env : Environment} (henv : env.Known) {d : Document}
    (hsections : ∀ part ∈ d.sections, part.Bindable) :
    Ends Environment.Known (fun failure => ¬failure.Internal) (s.bind env d) := by
  unfold bind
  cases hb : env.bind s.isFunction d.sections with
  | ok bound => exact .pure (Environment.known_of_bind henv hsections hb)
  | error e => exact .fail (Environment.not_internal_of_bind hsections hb)

theorem sound_valueOf (hs : s.HostsSound) (hexpand : SoundExpander expand) {env : Environment}
    (henv : env.Known) (slot : Slot) {v : Variable} (hv : v.kind ≠ .unknown) :
    Sound (s.valueOf expand env slot v) := by
  unfold valueOf
  split
  · exact .pure trivial
  · split
    · exact .pure trivial
    · refine (ends_bindParams slot.name henv v.params slot.params).bind fun env' henv' => ?_
      exact (hexpand env' henv' _).bind fun text _ => .pure trivial
  · exact sound_callNamed hs _ _
  · exact absurd ‹_› hv

theorem sound_resolveSlot (hs : s.HostsSound) (hexpand : SoundExpander expand) {env : Environment}
    (henv : env.Known) (slot : Slot) : Sound (s.resolveSlot expand env slot) := by
  unfold resolveSlot
  split
  · exact .pure trivial
  · rename_i v hv
    exact .tell_bind ((sound_valueOf hs hexpand henv slot (kind_of_referent? henv hv)).bind
      fun value _ => .pure trivial)

theorem sound_substitute? (hs : s.HostsSound) (hexpand : SoundExpander expand) {env : Environment}
    (henv : env.Known) {slot : Slot} (hslot : ∀ value, ∃ computed, slot.compute value = .ok computed) :
    Sound (s.substitute? expand env slot) := by
  refine (sound_resolveSlot hs hexpand henv slot).bind fun value? _ => ?_
  cases value? with
  | none => exact .pure trivial
  | some value =>
    obtain ⟨computed, hcomputed⟩ := hslot value
    show Sound (do return some (← Action.ofExcept (slot.compute value)).write)
    rw [hcomputed]
    exact .pure trivial

/-- The slots of a document that was parsed are filled in without an internal failure, if no template
causes one a level deeper. -/
theorem sound_renderDocumentWith (hs : s.HostsSound) (hexpand : SoundExpander expand)
    {env : Environment} (henv : env.Known) (depth : Int) {source : Bytes} {d : Document}
    (hd : Template.parse source = .ok d) : Sound (s.renderDocumentWith expand depth env d) := by
  unfold renderDocumentWith
  refine (ends_bind henv (Template.bindable_of_parse hd)).bind fun env' henv' => .tell_bind ?_
  -- The slots are apart, so that filling them in is resolving them and putting the text together.
  rw [foldlM_slotsFromEnd s expand env' (Template.slotsApart_of_parse hd), bind_assoc]
  refine Ends.bind (Ends.mapM fun slot hslot => ?_) fun filled _ => .pure trivial
  have hmem : slot ∈ d.slots := List.mem_mergeSort.mp (List.mem_reverse.mp hslot)
  exact (sound_substitute? hs hexpand henv'
    (Template.compute_of_parse hd (Document.mem_slots.mp hmem))).bind fun bytes? _ => .pure trivial

theorem not_internal_of_parse {source : Bytes} {failure : Failure}
    (h : Template.parse source = .error failure) : ¬failure.Internal := by
  obtain ⟨fault, -, rfl⟩ := Template.parse_eq_error h
  cases hreason : fault.reason <;> simp [Failure.Internal, Fault.failure, hreason, Fault.Reason.kind]

theorem sound_checkNames (depth : Int) (env : Environment) : Sound (s.checkNames depth env) := by
  unfold checkNames
  split
  · exact .fail (by simp [Failure.Internal])
  · exact .pure trivial

/-- Induction on the levels that are left: no template fails internally at any of them. -/
theorem sound_renderNested (hs : s.HostsSound) (levels : Nat) (depth : Int) :
    SoundExpander (s.renderNested levels depth) := by
  induction levels generalizing depth with
  | zero =>
    intro env henv template
    rw [renderNested]
    refine (sound_checkNames depth env).bind fun _ _ => ?_
    split
    · exact .pure trivial
    · exact .tell_bind (.pure trivial)
  | succ levels ih =>
    intro env henv template
    rw [renderNested]
    refine (sound_checkNames depth env).bind fun _ _ => ?_
    split
    · exact .pure trivial
    · refine .tell_bind ?_
      refine Ends.bind (P := fun d => Template.parse (Comment.strip template) = .ok d)
        (.ofExcept (fun _ h => h) fun _ h => not_internal_of_parse h) fun d hd => ?_
      exact sound_renderDocumentWith hs (ih (depth + 1)) henv depth hd

/-- No template fails internally, whatever the depth, in an environment of known kinds, unless a
function of the host does so itself; and every operation that was parsed can be applied to every
value. -/
theorem render_not_internal (s : Session σ) (hs : s.HostsSound) (depth : Int) (env : Environment)
    (henv : env.Known) (template : Bytes) (w : World σ) :
    (∀ failure, (s.render depth env template w).result = .error failure → ¬failure.Internal) ∧
      ∀ source d, Template.parse source = .ok d → ∀ span slot, .slot span slot ∈ d.sections →
        (∀ o, slot.operation = some o → o.dividesByZero = false) ∧
          ∀ value, ∃ computed, slot.compute value = .ok computed :=
  ⟨(sound_renderNested hs _ depth env henv template).error w, fun _ _ hd _ _ hslot =>
    ⟨fun _ ho => Template.dividesByZero_of_parse hd hslot ho, Template.compute_of_parse hd hslot⟩⟩

/-! A session whose host fails in a way of its own, and a template two levels above that function. -/

def faulty : Session Unit where
  functions :=
    (Registry.builtin Unit).insert (Bytes.ofString "boom")
      (.host fun _ state => (.error { kind := .functionFailed, name := Bytes.ofString "boom" }, state))

def calling : Environment :=
  (∅ : Environment).insert (Bytes.ofString "x")
    { kind := .text, value := .text (Bytes.ofString "\x7b\x7bboom()\x7d\x7d") }

theorem hostsSound_faulty : faulty.HostsSound := by
  intro name f hf arguments state failure he
  rw [faulty, Std.ExtTreeMap.getElem?_insert] at hf
  split at hf
  · cases hf
    cases he
    simp [Failure.Internal]
  · exact absurd hf (Registry.getElem?_builtin_ne_host name f)

theorem known_calling : calling.Known :=
  Environment.Known.insert Environment.known_empty (by simp) _

theorem render_not_internal_of_faulty :
    faulty.HostsSound ∧ calling.Known ∧
      (faulty.render 0 calling (Bytes.ofString "\x7b\x7bx\x7d\x7d") { disk := .empty, host := () }).result =
        .error { kind := .functionFailed, name := Bytes.ofString "boom" } ∧
      ¬Failure.Internal { kind := .functionFailed, name := Bytes.ofString "boom" } :=
  have h : (faulty.render 0 calling (Bytes.ofString "\x7b\x7bx\x7d\x7d") { disk := .empty, host := () }).result =
      .error { kind := .functionFailed, name := Bytes.ofString "boom" } := by decide +kernel
  ⟨hostsSound_faulty, known_calling, h,
    (render_not_internal faulty hostsSound_faulty 0 calling known_calling _ _).1 _ h⟩

end Session

end Stencil
