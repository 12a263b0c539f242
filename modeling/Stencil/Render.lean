import Stencil.Environment
import Stencil.Normalizer
import Stencil.Session
import Stencil.Template

/-!
# Rendering

A document is rendered by binding its definitions and then filling its slots in from the last to the
first, so that no slot moves before it is filled. A slot whose name stands for a text is filled with
that text rendered as a template, one level deeper; beyond the limit of the session templates are
passed through as they are. What comes out is normalized.

How a nested template is rendered is a parameter of the functions that fill slots (`expand`), and
`Session.renderNested` ties the knot; it recurses on the number of levels that are left.
-/

namespace Stencil

/-- Renders a template in an environment. -/
abbrev Expander (σ : Type) := Environment → Bytes → Action σ Bytes

/-- A value after the operation of a slot. Operations leave texts alone, but not even a text may be
divided by zero. -/
def Slot.compute (s : Slot) (value : Value) : Except Failure Value :=
  match s.operation with
  | none => .ok value
  | some operation =>
    if operation.dividesByZero then .error { kind := .divisionByZero, name := s.name }
    else
      match value with
      | .number x => .ok (.number (operation.operator.apply x operation.operand))
      | .text t => .ok (.text t)

/-- The slots of a document, those that start last in front. Slots that start in one place keep their
order. -/
def Document.slotsFromEnd (d : Document) : List (Span × Slot) :=
  d.slots.mergeSort fun a b => b.1.start ≤ a.1.start

namespace Session

variable {σ : Type}

/-- The variable that a slot refers to: one in scope, or else the call of the function of that name
with the slot's own arguments. -/
def referent? (s : Session σ) (env : Environment) (slot : Slot) : Option Variable :=
  match env[slot.name]? with
  | some v => some v
  | none =>
    if s.isFunction slot.name then
      some { kind := .function, value := .text slot.name, params := slot.params }
    else none

/-- Calls the function of a name, if there is one. -/
def callNamed (s : Session σ) (name : Bytes) (arguments : List Value) : Action σ Value :=
  match s.functions[name]? with
  | none => Action.fail { kind := .unknownFunction, name }
  | some function => do
    Action.tell (.called name arguments)
    function.call s arguments

/-- The value of a slot that refers to this variable. -/
def valueOf (s : Session σ) (expand : Expander σ) (env : Environment) (slot : Slot) (v : Variable) :
    Action σ Value :=
  match v.kind with
  | .number => return v.value
  | .text =>
    if slot.raw then return v.value
    else do
      let env ← Action.ofExcept (env.bindParams slot.name v.params slot.params)
      return .text (← expand env v.value.write)
  | .function => s.callNamed v.value.write (v.params.map (·.value))
  | .unknown =>
    Action.fail
      { kind := .invariantViolation, name := slot.name,
        detail := Bytes.ofString "variable should never be unknown type, only params can be" }

/-- The value of a slot, before its operation; `none` if its name stands for nothing. -/
def resolveSlot (s : Session σ) (expand : Expander σ) (env : Environment) (slot : Slot) :
    Action σ (Option Value) :=
  match s.referent? env slot with
  | none => return none
  | some v => do
    s.note (.resolved slot.name v.kind)
    return some (← s.valueOf expand env slot v)

/-- A text with one of its slots filled in. A slot whose name stands for nothing stays as it is. -/
def fillSlot (s : Session σ) (expand : Expander σ) (env : Environment) (text : Bytes)
    (slot : Span × Slot) : Action σ Bytes := do
  match ← s.resolveSlot expand env slot.2 with
  | none => return text
  | some value =>
    let value ← Action.ofExcept (slot.2.compute value)
    let outside : Failure :=
      { kind := .invariantViolation, name := slot.2.name,
        detail := Bytes.ofString "slot span lies outside the text" }
    if slot.1.stop < slot.1.start then Action.fail outside
    else
      match Bytes.splice? text value.write slot.1.start slot.1.stop with
      | some text => return text
      | none => Action.fail outside

/-- The environment of a document with its definitions bound. -/
def bind (s : Session σ) (env : Environment) (d : Document) : Action σ Environment :=
  Action.ofExcept ((env.bind s.isFunction d.sections).mapError (·.1))

/-- Renders a document at a depth, given how templates are rendered one level deeper. -/
def renderDocumentWith (s : Session σ) (expand : Expander σ) (depth : Int) (env : Environment)
    (d : Document) : Action σ Bytes := do
  let env ← s.bind env d
  s.note (.bound env.size depth)
  let text ← d.slotsFromEnd.foldlM (s.fillSlot expand env) d.text
  return normalize text

/-- At depth zero no variable may have the name of a function. -/
def checkNames (s : Session σ) (depth : Int) (env : Environment) : Action σ Unit :=
  match if depth = 0 then env.keys.find? s.isFunction else none with
  | some name => Action.fail { kind := .nameConflictWithFunction, name }
  | none => return ()

/-- Renders a template at a depth with so many levels left, its own included. Blank templates and
templates with no level left are passed through. -/
def renderNested (s : Session σ) : (levels : Nat) → (depth : Int) → Expander σ
  | levels, depth, env, template => do
    s.checkNames depth env
    if Bytes.isBlank template then return template
    else
      match levels with
      | 0 => do
        s.note (.passedThrough depth s.limit)
        return template
      | levels + 1 => do
        let source := Comment.strip template
        s.note (.reading depth source)
        let d ← Action.ofExcept (Template.parse source)
        s.renderDocumentWith (s.renderNested levels (depth + 1)) depth env d

/-- How many levels are left at a depth, the one at this depth included. -/
def levelsAt (s : Session σ) (depth : Int) : Nat := (s.limit + 1 - depth).toNat

/-- Renders a template at a depth. -/
def render (s : Session σ) (depth : Int) : Expander σ := s.renderNested (s.levelsAt depth) depth

/-- Renders a document at a depth. -/
def renderDocument (s : Session σ) (depth : Int) (env : Environment) (d : Document) :
    Action σ Bytes :=
  s.renderDocumentWith (s.render (depth + 1)) depth env d

end Session

end Stencil
