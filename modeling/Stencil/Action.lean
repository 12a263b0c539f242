import Stencil.Disk
import Stencil.Failure

/-!
# Actions

Rendering reads files and calls functions, and may fail on the way. An action takes the world as it
is and tells three things: its result or its failure, the world after it, and the events on the way,
in order. The events of two actions in a row are those of the first followed by those of the second,
and a failure keeps the world and the events up to it.
-/

namespace Stencil

/-- What an action can see and change: the disk, the files that were read before under the path they
were read by, the state of the host's functions, and the numbers that are still to be drawn at random, in
their order, of which nothing is known. -/
structure World (σ : Type) where
  disk : Disk
  cache : Std.ExtTreeMap Bytes Bytes := ∅
  host : σ
  draws : Nat → Nat := fun _ => 0

/-- How an action ended. -/
structure Outcome (σ α : Type) where
  result : Except Failure α
  world : World σ
  events : List Event

/-- Something that happens to the world. -/
def Action (σ α : Type) := World σ → Outcome σ α

namespace Action

variable {σ α β : Type}

protected def pure (a : α) : Action σ α := fun w => ⟨.ok a, w, []⟩

protected def bind (x : Action σ α) (f : α → Action σ β) : Action σ β := fun w =>
  match x w with
  | ⟨.error failure, w, events⟩ => ⟨.error failure, w, events⟩
  | ⟨.ok a, w, events⟩ =>
    let next := f a w
    { next with events := events ++ next.events }

instance : Monad (Action σ) where
  pure := Action.pure
  bind := Action.bind

instance : LawfulMonad (Action σ) := LawfulMonad.mk' (Action σ)
  (by
    intro α x
    funext w
    simp only [Functor.map, Action.bind]
    split <;> simp_all [Action.pure])
  (by intro α β a f; rfl)
  (by
    intro α β γ x f g
    funext w
    simp only [Bind.bind, Action.bind]
    cases x w with
    | mk result w' events =>
      cases result with
      | error failure => rfl
      | ok a =>
        dsimp only
        cases f a w' with
        | mk result w'' more => cases result <;> simp)

/-- Fails. -/
def fail (failure : Failure) : Action σ α := fun w => ⟨.error failure, w, []⟩

/-- Succeeds or fails as computed. -/
def ofExcept : Except Failure α → Action σ α
  | .ok a => pure a
  | .error failure => fail failure

/-- Tells of an event. -/
def tell (event : Event) : Action σ Unit := fun w => ⟨.ok (), w, [event]⟩

/-- The world as it is. -/
def world : Action σ (World σ) := fun w => ⟨.ok w, w, []⟩

/-- Puts a file's content into the cache. -/
def remember (path content : Bytes) : Action σ Unit := fun w =>
  ⟨.ok (), { w with cache := w.cache.insert path content }, []⟩

/-- Changes the disk, with events of its own. -/
def onDisk (change : Disk → Disk × List Event × α) : Action σ α := fun w =>
  let (disk, events, a) := change w.disk
  ⟨.ok a, { w with disk }, events⟩

/-- Draws a number at random. -/
def draw : Action σ Nat := fun w =>
  ⟨.ok (w.draws 0), { w with draws := fun n => w.draws (n + 1) }, []⟩

/-- Runs a computation on the host's state. -/
def onHost (compute : σ → Except Failure α × σ) : Action σ α := fun w =>
  let (result, host) := compute w.host
  ⟨result, { w with host }, []⟩

end Action

end Stencil
