import Stencil.Proofs.Effects

/-!
# What actions tell

What an action tells on its way is what its parts tell (`Action.Tells`). Functions tell of the files and
directories that they look for and of nothing else (`Session.tells_call`); so no step of an evaluation is
told of on the way, and no call but the one that is made (`Session.tells_callNamed`). An action that tells of
steps alone and always ends in one way has not looked at the world (`Action.Settled`).
-/

namespace Stencil

/-- Is this a step of an evaluation, shown or not? -/
def Event.isStep : Event → Bool
  | .step .. => true
  | .cannotOpen _ | .cannotLoad _ | .cannotList _ | .cannotMakeDirectory _ | .notDirectory _
  | .cannotCreate _ | .lost _ | .called .. | .listed _ => false

/-- Is this the call of a function? -/
def Event.isCall : Event → Bool
  | .called .. => true
  | _ => false

/-- Is this about a file or a directory? -/
def Event.isOfFiles : Event → Bool
  | .cannotOpen _ | .cannotLoad _ | .cannotList _ | .cannotMakeDirectory _ | .notDirectory _
  | .cannotCreate _ | .lost _ | .listed _ => true
  | .step .. | .called .. => false

theorem Event.isStep_of_isOfFiles {event : Event} (h : event.isOfFiles) : event.isStep = false := by
  cases event <;> first | rfl | cases h

namespace Action

/-- Whatever the world is, everything that is told on the way is of this kind. -/
def Tells {σ α : Type} (P : Event → Prop) (x : Action σ α) : Prop := ∀ w, ∀ event ∈ (x w).events, P event

namespace Tells

variable {σ α β : Type} {P Q : Event → Prop}

theorem mono {x : Action σ α} (h : Tells P x) (hPQ : ∀ event, P event → Q event) : Tells Q x :=
  fun w event hevent => hPQ event (h w event hevent)

theorem pure (a : α) : Tells P (Pure.pure a : Action σ α) := fun _ _ hevent => by cases hevent

theorem fail (failure : Failure) : Tells P (fail failure : Action σ α) := fun _ _ hevent => by cases hevent

theorem tell {event : Event} (h : P event) : Tells P (tell event : Action σ Unit) :=
  fun _ _ hevent => List.mem_singleton.mp hevent ▸ h

theorem world : Tells P (world : Action σ (World σ)) := fun _ _ hevent => by cases hevent

theorem draw : Tells P (draw : Action σ Nat) := fun _ _ hevent => by cases hevent

theorem onHost (compute : σ → Except Failure α × σ) : Tells P (onHost compute) :=
  fun _ _ hevent => by cases hevent

theorem ofExcept (x : Except Failure α) : Tells P (ofExcept x : Action σ α) := by
  cases x with
  | ok a => exact pure a
  | error failure => exact fail failure

theorem bind {x : Action σ α} {f : α → Action σ β} (hx : Tells P x) (hf : ∀ a, Tells P (f a)) :
    Tells P (x >>= f) := by
  intro w event hevent
  have hw := hx w
  replace hevent : event ∈ (Action.bind x f w).events := hevent
  rw [Action.bind] at hevent
  rcases hrun : x w with ⟨_ | a, w', events⟩
  · rw [hrun] at hw hevent
    exact hw event hevent
  · rw [hrun] at hw hevent
    rcases List.mem_append.mp hevent with hevent | hevent
    · exact hw event hevent
    · exact hf a w' event hevent

theorem tell_bind {event : Event} {x : Action σ α} (h : P event) (hx : Tells P x) :
    Tells P (do Action.tell event; x) :=
  (tell h).bind fun _ => hx

theorem ofExcept_bind {x : Except Failure α} {f : α → Action σ β} (h : ∀ a, x = .ok a → Tells P (f a)) :
    Tells P (Action.ofExcept x >>= f) := by
  cases x with
  | ok a =>
    show Tells P (Pure.pure a >>= f)
    rw [pure_bind]
    exact h a rfl
  | error failure => exact fail failure

theorem composes (P : Event → Prop) : Composes (σ := σ) fun α x => Tells (α := α) P x where
  pure := pure
  bind := bind

end Tells

/-- Whatever the world is, the action ends in this way, leaves the world alone and tells of steps of an
evaluation and of nothing else. -/
def Settled {σ α : Type} (x : Action σ α) (result : Except Failure α) : Prop :=
  ∃ events : List Event, (∀ event ∈ events, event.isStep) ∧ ∀ w, x w = ⟨result, w, events⟩

namespace Settled

variable {σ α β : Type}

theorem pure (a : α) : Settled (Pure.pure a : Action σ α) (.ok a) := ⟨[], by simp, fun _ => rfl⟩

theorem fail (failure : Failure) : Settled (fail failure : Action σ α) (.error failure) :=
  ⟨[], by simp, fun _ => rfl⟩

theorem bind {x : Action σ α} {f : α → Action σ β} {a : α} {result : Except Failure β}
    (hx : Settled x (.ok a)) (hf : Settled (f a) result) : Settled (x >>= f) result := by
  obtain ⟨events, hevents, hx⟩ := hx
  obtain ⟨more, hmore, hf⟩ := hf
  refine ⟨events ++ more, List.forall_mem_append.mpr ⟨hevents, hmore⟩, fun w => ?_⟩
  show Action.bind x f w = _
  rw [Action.bind, hx]
  dsimp only
  rw [hf]

theorem tell_bind {event : Event} {x : Action σ α} {result : Except Failure α} (h : event.isStep)
    (hx : Settled x result) : Settled (do tell event; x) result :=
  bind (a := ()) ⟨[event], by simpa using h, fun _ => rfl⟩ hx

end Settled

end Action

/-! ## Files and functions -/

/-- Nothing that is told on the way is a step of an evaluation. -/
abbrev Action.TellsNoStep {σ α : Type} (x : Action σ α) : Prop := x.Tells fun event => event.isStep = false

/-- All that is told on the way is about files and directories. -/
abbrev Action.TellsOfFiles {σ α : Type} (x : Action σ α) : Prop := x.Tells fun event => event.isOfFiles

theorem Disk.isOfFiles_of_read {disk : Disk} {path : Bytes} {event : Event}
    (h : disk.read path = .error event) : event.isOfFiles := by
  unfold read at h
  split at h <;> cases h <;> rfl

theorem Disk.isOfFiles_of_list {disk : Disk} {path : Bytes} {event : Event}
    (h : disk.list path = .error event) : event.isOfFiles := by
  unfold list at h
  split at h <;> cases h
  rfl

namespace Session

open Stencil.Action (Tells TellsNoStep TellsOfFiles)

variable {σ : Type} (s : Session σ)

theorem tells_read (path : Bytes) : TellsOfFiles (s.read path) := by
  intro w
  rcases s.read_cases path w with
    ⟨content, -, hread⟩ | ⟨-, content, -, hread⟩ | ⟨-, event, hdisk, hread⟩
  · simp [hread]
  · simp [hread]
  · simpa [hread] using Disk.isOfFiles_of_read hdisk

theorem tells_list (path : Bytes) : TellsOfFiles (s.list path) := by
  refine Tells.world.bind fun w => ?_
  split
  · exact .tell_bind rfl (.pure _)
  · rename_i event hlist
    exact .tell_bind (Disk.isOfFiles_of_list hlist) (.pure _)

theorem tells_contentFor (function path : Bytes) : TellsOfFiles (Function.contentFor function s path) := by
  refine (s.tells_read path).bind fun content? => ?_
  cases content? with
  | some content => exact .pure content
  | none => exact .fail _

theorem tells_call (arguments : List Value) (f : Function σ) : TellsOfFiles (f.call s arguments) := by
  have hcomposes := Tells.composes (σ := σ) fun event => event.isOfFiles
  have hfrom (directory extension : Bytes) : TellsOfFiles (Function.loadFrom s directory extension) := by
    refine (s.tells_list directory).bind fun files? => ?_
    cases files? with
    | none => exact .fail _
    | some files =>
      refine (hcomposes.mapM fun file _ => ?_).bind fun entries => .pure _
      exact (s.tells_contentFor _ _).bind fun content => .pure _
  cases f with
  | load =>
    show TellsOfFiles (Function.loadFiles s arguments)
    unfold Function.loadFiles
    dsimp only
    split
    · exact .fail _
    · refine (hcomposes.mapM fun argument _ => ?_).bind fun contents => .pure _
      refine (Tells.world.bind fun _ => .pure _).bind fun status => ?_
      split
      · exact .fail _
      · exact s.tells_contentFor _ _
  | loadDirectory =>
    match arguments with
    | [] => exact .fail _
    | [directory] => exact hfrom _ _
    | [directory, extension] => exact hfrom _ _
    | _ :: _ :: _ :: _ => exact .fail _
  | pick =>
    show TellsOfFiles (if arguments.isEmpty then _ else _)
    split
    · exact .fail _
    · exact Tells.draw.bind fun n => .pure _
  | host g => exact .onHost _

theorem tells_callNamed (name : Bytes) (arguments : List Value) :
    TellsNoStep (s.callNamed name arguments) := by
  unfold callNamed
  split
  · exact .fail _
  · exact .tell_bind rfl ((s.tells_call arguments _).mono fun event => Event.isStep_of_isOfFiles)

end Session

end Stencil
