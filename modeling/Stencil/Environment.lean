import Std.Data.ExtTreeMap
import Stencil.Section
import Stencil.Failure

/-!
# Environments

The variables in scope, by name. Every evaluation has an environment of its own, so that nothing it
binds is seen outside. `Environment.bind` adds the definitions of a document, in their order, up to
the first section that cannot be bound.
-/

namespace Stencil

/-- The variables in scope, in the byte order of their names. -/
abbrev Environment := Std.ExtTreeMap Bytes Variable

namespace Environment

/-- Why a section cannot be bound to an environment, if it cannot. That a name is a function's weighs
more than that it is taken. -/
def conflict? (isFunction : Bytes → Bool) (env : Environment) : Section → Option Failure
  | .text _ | .slot _ _ => none
  | .definition _ d =>
    if isFunction d.name then some { kind := .nameConflictWithFunction, name := d.name }
    else if env.contains d.name then some { kind := .nameConflict, name := d.name }
    else none
  | .unknown code name =>
    some
      { kind := .unknownSectionKind, name, detail := Bytes.ofString "section kind " ++ Bytes.ofNat code }

/-- An environment with the definition that a section is, if it is one. -/
def add (env : Environment) : Section → Environment
  | .definition _ d => env.insert d.name d.variable
  | _ => env

/-- The environment with all definitions of these sections added; or the failure of the first section
in conflict, with the environment that the sections before it make. -/
def bind (isFunction : Bytes → Bool) (env : Environment) :
    List Section → Except (Failure × Environment) Environment
  | [] => .ok env
  | s :: rest =>
    match conflict? isFunction env s with
    | some failure => .error (failure, env)
    | none => bind isFunction (env.add s) rest

/-- The environment of a template that is called with these arguments: the declared parameter in each
place is bound to the argument in that place or to its default. `caller` is the name of the slot. -/
def bindParams (caller : Bytes) (env : Environment) :
    (declared : List Param) → (arguments : List Param) → Except Failure Environment
  | [], _ => .ok env
  | p :: declared, a :: arguments =>
    bindParams caller (env.insert p.name (.ofValue a.value)) declared arguments
  | p :: declared, [] =>
    if p.required then
      .error
        { kind := .missingRequiredParameter, name := p.name,
          detail := Bytes.ofString "required by " ++ caller }
    else bindParams caller (env.insert p.name (.ofValue p.value)) declared []

end Environment

end Stencil
