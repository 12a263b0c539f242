import Stencil.Proofs.SingleSlots

/-!
# Parameters and arguments

The parameters that a text declares and the arguments of a slot are gone through side by side, and where the
arguments end the defaults take their place. What that comes to is said by places: a parameter is bound to
the argument in its place or to its default (`Environment.bindings`), one after the other, unless there is a
first one behind the arguments that is required (`Environment.FirstMissing`). One of the two is the case
(`bindParams_cases`, by induction on the parameters). Arguments for which there is no parameter are not looked
at (`bindParams_append_extra`), and a default that is written out is bound as if it were not
(`bindParams_append_defaults`). The main statement is `Session.resolveSlot_by_position`.
-/

namespace Stencil

namespace Environment

/-- The parameter in this place is required and has no argument, and it is the first of this kind. -/
structure FirstMissing (declared arguments : List Param) (i : Nat) (p : Param) : Prop where
  place : declared[i]? = some p
  omitted : arguments.length ≤ i
  required : p.required = true
  first : ∀ j q, arguments.length ≤ j → j < i → declared[j]? = some q → q.required = false

/-- No parameter without an argument is required. -/
def NoneMissing (declared arguments : List Param) : Prop :=
  ∀ i p, arguments.length ≤ i → declared[i]? = some p → p.required = false

/-- The failure of a slot of this name that does not give what is required. -/
def missingArgument (caller : Bytes) (p : Param) : Failure where
  kind := .missingRequiredParameter
  name := p.name
  detail := Bytes.ofString "required by " ++ caller

/-- The names of the parameters in their order, each with the argument in its place or with its default. -/
def bindings (declared arguments : List Param) : List (Bytes × Value) :=
  declared.mapIdx fun i p => (p.name, (arguments[i]?.getD p).value)

/-- The environment with these values under these names, one after the other. A number makes a number variable
and a text makes a text variable, which declare nothing. -/
def override (env : Environment) : List (Bytes × Value) → Environment
  | [] => env
  | (name, .number x) :: rest => override (env.insert name { kind := .number, value := .number x }) rest
  | (name, .text t) :: rest => override (env.insert name { kind := .text, value := .text t }) rest

/-! ## Place by place -/

section

variable {declared arguments : List Param} {p q a : Param} {i : Nat}

theorem FirstMissing.with_argument (h : FirstMissing declared arguments i q) :
    FirstMissing (p :: declared) (a :: arguments) (i + 1) q := by
  refine ⟨h.place, Nat.succ_le_succ h.omitted, h.required, fun j r homitted hj hr => ?_⟩
  cases j with
  | zero => simp at homitted
  | succ j => exact h.first j r (by simpa using homitted) (by omega) hr

theorem FirstMissing.with_default (hp : p.required = false) (h : FirstMissing declared [] i q) :
    FirstMissing (p :: declared) [] (i + 1) q := by
  refine ⟨h.place, Nat.zero_le _, h.required, fun j r _ hj hr => ?_⟩
  cases j with
  | zero =>
    obtain rfl : p = r := by simpa using hr
    exact hp
  | succ j => exact h.first j r (Nat.zero_le j) (by omega) hr

theorem NoneMissing.with_argument (h : NoneMissing declared arguments) :
    NoneMissing (p :: declared) (a :: arguments) := by
  intro i q homitted hq
  cases i with
  | zero => simp at homitted
  | succ i => exact h i q (by simpa using homitted) hq

theorem NoneMissing.with_default (hp : p.required = false) (h : NoneMissing declared []) :
    NoneMissing (p :: declared) [] := by
  intro i q _ hq
  cases i with
  | zero =>
    obtain rfl : p = q := by simpa using hq
    exact hp
  | succ i => exact h i q (Nat.zero_le i) hq

theorem bindings_with_argument :
    bindings (p :: declared) (a :: arguments) = (p.name, a.value) :: bindings declared arguments := by
  simp [bindings, List.mapIdx_cons]

theorem bindings_with_default :
    bindings (p :: declared) [] = (p.name, p.value) :: bindings declared [] := by
  simp [bindings, List.mapIdx_cons]

end

theorem override_cons (env : Environment) (name : Bytes) (value : Value) (values : List (Bytes × Value)) :
    env.override ((name, value) :: values) = override (env.insert name (.ofValue value)) values := by
  cases value <;> rfl

/-! ## Binding -/

theorem bindParams_cases (caller : Bytes) (env : Environment) (declared arguments : List Param) :
    (∃ i p, FirstMissing declared arguments i p ∧
      env.bindParams caller declared arguments = .error (missingArgument caller p)) ∨
    (NoneMissing declared arguments ∧
      env.bindParams caller declared arguments = .ok (env.override (bindings declared arguments))) := by
  fun_induction bindParams caller env declared arguments with
  | case1 env arguments =>
    right
    exact ⟨fun i p _ hp => by simp at hp, rfl⟩
  | case2 env p declared a arguments ih =>
    rcases ih with ⟨i, q, hmissing, hbind⟩ | ⟨hnone, hbind⟩
    · exact .inl ⟨i + 1, q, hmissing.with_argument, hbind⟩
    · rw [bindings_with_argument, override_cons]
      exact .inr ⟨hnone.with_argument, hbind⟩
  | case3 env p declared hrequired =>
    refine .inl ⟨0, p, ⟨rfl, Nat.zero_le 0, hrequired, ?_⟩, rfl⟩
    intro j _ _ hj _
    exact absurd hj (Nat.not_lt_zero j)
  | case4 env p declared hoptional ih =>
    have hp : p.required = false := by simpa using hoptional
    rcases ih with ⟨i, q, hmissing, hbind⟩ | ⟨hnone, hbind⟩
    · exact .inl ⟨i + 1, q, hmissing.with_default hp, hbind⟩
    · rw [bindings_with_default, override_cons]
      exact .inr ⟨hnone.with_default hp, hbind⟩

theorem bindParams_append_extra (caller : Bytes) (env : Environment) {declared arguments : List Param}
    (h : declared.length ≤ arguments.length) (extra : List Param) :
    env.bindParams caller declared (arguments ++ extra) = env.bindParams caller declared arguments := by
  induction declared generalizing env arguments with
  | nil => rw [bindParams, bindParams]
  | cons p declared ih =>
    cases arguments with
    | nil => simp at h
    | cons a arguments =>
      rw [List.cons_append, bindParams, bindParams]
      exact ih _ (Nat.le_of_succ_le_succ h)

/-- Where there are no arguments, the first defaults are bound whether they are written out or not. -/
theorem bindParams_defaults (caller : Bytes) (env : Environment) {omitted defaults : List Param}
    (hoptional : ∀ p ∈ omitted, p.required = false)
    (hdefaults : defaults.map (·.value) = omitted.map (·.value)) (rest : List Param) :
    env.bindParams caller (omitted ++ rest) defaults = env.bindParams caller (omitted ++ rest) [] := by
  induction omitted generalizing env defaults with
  | nil =>
    obtain rfl : defaults = [] := by simpa using hdefaults
    rfl
  | cons p omitted ih =>
    obtain ⟨hp, hrest⟩ := List.forall_mem_cons.mp hoptional
    cases defaults with
    | nil => simp at hdefaults
    | cons a defaults =>
      obtain ⟨hvalue, hvalues⟩ : a.value = p.value ∧ defaults.map (·.value) = omitted.map (·.value) := by
        simpa using hdefaults
      rw [List.cons_append, bindParams, bindParams, if_neg (by simp [hp]), hvalue]
      exact ih _ hrest hvalues

/-- The defaults of the first parameters behind the arguments can be written out as more arguments. -/
theorem bindParams_append_defaults (caller : Bytes) (env : Environment)
    {declared arguments omitted rest defaults : List Param}
    (hdeclared : declared.drop arguments.length = omitted ++ rest)
    (hoptional : ∀ p ∈ omitted, p.required = false)
    (hdefaults : defaults.map (·.value) = omitted.map (·.value)) :
    env.bindParams caller declared (arguments ++ defaults) = env.bindParams caller declared arguments := by
  induction arguments generalizing env declared with
  | nil =>
    obtain rfl : declared = omitted ++ rest := hdeclared
    exact bindParams_defaults caller env hoptional hdefaults rest
  | cons a arguments ih =>
    cases declared with
    | nil => rw [bindParams, bindParams]
    | cons p declared =>
      rw [List.cons_append, bindParams, bindParams]
      exact ih _ hdeclared

end Environment

namespace Session

open Environment (FirstMissing NoneMissing missingArgument bindings)

variable {σ : Type} (s : Session σ)

theorem resolveSlot_of_text (expand : Expander σ) {env : Environment} {slot : Slot} {v : Variable}
    (hscope : env[slot.name]? = some v) (hkind : v.kind = .text) (hraw : slot.raw = false) :
    s.resolveSlot expand env slot = do
      s.note (.resolved slot.name .text)
      let inner ← Action.ofExcept (env.bindParams slot.name v.params slot.params)
      let text ← expand inner v.value.write
      return some (.text text) := by
  rw [resolveSlot, s.referent?_of_getElem? hscope]
  simp only [valueOf, hkind, hraw, Bool.false_eq_true, if_false, bind_assoc, pure_bind]

/-- A slot that is not raw and refers to a text takes its arguments by their places. If a parameter that is
required has none, the slot fails, for the first one that has none, and nothing is rendered. Otherwise the text
is rendered one level deeper, with each parameter bound to its argument or to its default. So arguments for
which there is no parameter make no difference, and neither does it whether a default is written out. -/
theorem resolveSlot_by_position (depth : Int) {env : Environment} {slot : Slot} {v : Variable}
    (hscope : env[slot.name]? = some v) (hkind : v.kind = .text) (hraw : slot.raw = false)
    (arguments : List Param) :
    let resolve (arguments : List Param) : Action σ (Option Value) :=
      s.resolveSlot (s.render (depth + 1)) env { slot with params := arguments }
    ((∃ i p, FirstMissing v.params arguments i p ∧ resolve arguments = do
        s.note (.resolved slot.name .text)
        Action.fail (missingArgument slot.name p)) ∨
      (NoneMissing v.params arguments ∧ resolve arguments = do
        s.note (.resolved slot.name .text)
        let text ← s.render (depth + 1) (env.override (bindings v.params arguments)) v.value.write
        return some (.text text))) ∧
    (∀ extra, v.params.length ≤ arguments.length → resolve (arguments ++ extra) = resolve arguments) ∧
    ∀ omitted rest defaults, v.params.drop arguments.length = omitted ++ rest →
      (∀ p ∈ omitted, p.required = false) → defaults.map Param.value = omitted.map Param.value →
      resolve (arguments ++ defaults) = resolve arguments := by
  intro resolve
  have hresolve (arguments : List Param) : resolve arguments = do
      s.note (.resolved slot.name .text)
      let inner ← Action.ofExcept (env.bindParams slot.name v.params arguments)
      let text ← s.render (depth + 1) inner v.value.write
      return some (.text text) := by
    have hscope' : env[({ slot with params := arguments } : Slot).name]? = some v := hscope
    exact s.resolveSlot_of_text _ hscope' hkind hraw
  refine ⟨?_, fun extra hextra => ?_, fun omitted rest defaults hdeclared hoptional hdefaults => ?_⟩
  · rw [hresolve]
    rcases Environment.bindParams_cases slot.name env v.params arguments with
      ⟨i, p, hmissing, hbind⟩ | ⟨hnone, hbind⟩
    · refine .inl ⟨i, p, hmissing, ?_⟩
      rw [hbind]
      rfl
    · refine .inr ⟨hnone, ?_⟩
      rw [hbind, Action.ofExcept, pure_bind]
  · rw [hresolve, hresolve, Environment.bindParams_append_extra _ _ hextra]
  · rw [hresolve, hresolve, Environment.bindParams_append_defaults _ _ hdeclared hoptional hdefaults]

/-- A text that requires one parameter and has a default for another, used with no argument, with a text, with a
number, and with the default written out. -/
theorem resolveSlot_by_position_of_greeting :
    let s : Session Unit := {}
    let who : Param := { name := Bytes.ofString "who", required := true }
    let mark : Param := { name := Bytes.ofString "mark", value := .text (Bytes.ofString "!") }
    let template := Bytes.ofString "Hello \x7b\x7bwho\x7d\x7d\x7b\x7bmark\x7d\x7d"
    let v : Variable := { kind := .text, value := .text template, params := [who, mark] }
    let env : Environment := (∅ : Environment).insert (Bytes.ofString "greet") v
    let slot : Slot := { name := Bytes.ofString "greet" }
    let ann : Param := { value := .text (Bytes.ofString "Ann") }
    let two : Param := { value := .number ⟨0x4000000000000000⟩ }
    let written : Param := { value := .text (Bytes.ofString "!") }
    let greeted (who : Variable) : Environment :=
      (env.insert (Bytes.ofString "who") who).insert (Bytes.ofString "mark")
        { kind := .text, value := .text (Bytes.ofString "!") }
    let resolve (arguments : List Param) : Action Unit (Option Value) :=
      s.resolveSlot (s.render 1) env { slot with params := arguments }
    (∃ i p, FirstMissing [who, mark] [] i p ∧ resolve [] = do
      s.note (.resolved slot.name .text)
      Action.fail (missingArgument slot.name p)) ∧
    (NoneMissing [who, mark] [ann] ∧ resolve [ann] = do
      s.note (.resolved slot.name .text)
      let text ← s.render 1 (greeted { kind := .text, value := .text (Bytes.ofString "Ann") }) template
      return some (.text text)) ∧
    (NoneMissing [who, mark] [two] ∧ resolve [two] = do
      s.note (.resolved slot.name .text)
      let text ← s.render 1 (greeted { kind := .number, value := .number ⟨0x4000000000000000⟩ }) template
      return some (.text text)) ∧
    resolve [ann, written] = resolve [ann] ∧
    resolve [ann, written, written] = resolve [ann, written] := by
  intro s who mark template v env slot ann two written greeted resolve
  have hscope : env[slot.name]? = some v := Std.ExtTreeMap.getElem?_insert_self
  have hplaces (arguments : List Param) := s.resolveSlot_by_position 0 hscope rfl rfl arguments
  -- The second parameter has a default, so nothing is missing where there is an argument.
  have hfirst (argument p : Param) (i : Nat) : ¬FirstMissing [who, mark] [argument] i p := by
    rintro ⟨hplace, homitted, hrequired, -⟩
    match i with
    | 0 => cases homitted
    | 1 =>
      obtain rfl : mark = p := Option.some.inj hplace
      exact absurd hrequired (by decide)
    | i + 2 => cases hplace
  refine ⟨?_, ?_, ?_, ?_, ?_⟩
  · refine (hplaces []).1.resolve_right fun ⟨hnone, _⟩ => ?_
    exact absurd (hnone 0 who (Nat.le_refl 0) rfl) (by decide)
  · exact (hplaces [ann]).1.resolve_left fun ⟨i, p, hmissing, _⟩ => hfirst ann p i hmissing
  · exact (hplaces [two]).1.resolve_left fun ⟨i, p, hmissing, _⟩ => hfirst two p i hmissing
  · exact (hplaces [ann]).2.2 [mark] [] [written] rfl (by decide) rfl
  · exact (hplaces [ann, written]).2.1 [written] (Nat.le_refl 2)

end Session

end Stencil
