import Stencil.Render

/-!
# What evaluations do to the world

Whatever a session evaluates is put together from a few actions. A property of actions that is kept when
they are put together (`Action.Closed`) holds of every evaluation as soon as it holds of reading a file,
of drawing a number and of calling a function of the host (`Session.Keeps`): `Session.Keeps.render` is the
one for templates, and `Session.Keeps.callNamed` the one for functions.

So an evaluation leaves the disk as it is and only adds to the cache, under the path of a file what the
file holds (`World.Reads`).
-/

namespace Stencil

/-! ## Properties of actions -/

namespace Action

/-- The property is kept when actions are done one after the other. -/
structure Composes {σ : Type} (P : (α : Type) → Action σ α → Prop) : Prop where
  pure {α : Type} (a : α) : P α (pure a)
  bind {α β : Type} {x : Action σ α} {f : α → Action σ β} : P α x → (∀ a, P β (f a)) → P β (x >>= f)

/-- The property is kept when actions are put together. -/
structure Closed {σ : Type} (P : (α : Type) → Action σ α → Prop) : Prop extends Composes P where
  fail {α : Type} (failure : Failure) : P α (fail failure)
  tell (event : Event) : P Unit (tell event)
  world : P (World σ) world

namespace Composes

variable {σ α β : Type} {P : (α : Type) → Action σ α → Prop} (h : Composes P)
include h

theorem mapM {f : α → Action σ β} {l : List α} (hf : ∀ a ∈ l, P β (f a)) : P (List β) (l.mapM f) := by
  induction l with
  | nil => exact h.pure []
  | cons a l ih =>
    rw [List.forall_mem_cons] at hf
    rw [List.mapM_cons]
    exact h.bind hf.1 fun b => h.bind (ih hf.2) fun bs => h.pure (b :: bs)

theorem foldlM {f : β → α → Action σ β} {l : List α} (hf : ∀ b, ∀ a ∈ l, P β (f b a)) (b : β) :
    P β (l.foldlM f b) := by
  induction l generalizing b with
  | nil => exact h.pure b
  | cons a l ih =>
    rw [List.foldlM_cons]
    exact h.bind (hf b a (List.mem_cons_self ..)) fun b' =>
      ih (fun b a ha => hf b a (List.mem_cons_of_mem _ ha)) b'

theorem forM {f : α → Action σ PUnit} {l : List α} (hf : ∀ a ∈ l, P PUnit (f a)) :
    P PUnit (l.forM f) := by
  induction l with
  | nil => exact h.pure PUnit.unit
  | cons a l ih =>
    rw [List.forall_mem_cons] at hf
    exact h.bind hf.1 fun _ => ih hf.2

end Composes

theorem Closed.ofExcept {σ α : Type} {P : (α : Type) → Action σ α → Prop} (h : Closed P)
    (x : Except Failure α) : P α (ofExcept x) := by
  cases x with
  | ok a => exact h.pure a
  | error failure => exact h.fail failure

theorem world_bind {σ α : Type} (f : World σ → Action σ α) (w : World σ) : (world >>= f) w = f w w := rfl

/-- Whatever the world is, the action leaves one behind that is related to it. -/
def Moves {σ : Type} (R : World σ → World σ → Prop) (α : Type) (x : Action σ α) : Prop :=
  ∀ w, R w (x w).world

theorem moves_bind {σ α β : Type} {R : World σ → World σ → Prop}
    (htrans : ∀ u v w, R u v → R v w → R u w) {x : Action σ α} {f : α → Action σ β}
    (hx : Moves R α x) (hf : ∀ a, Moves R β (f a)) : Moves R β (x >>= f) := by
  intro w
  have hw := hx w
  show R w (Action.bind x f w).world
  rw [Action.bind]
  revert hw
  rcases x w with ⟨_ | a, w', events⟩
  · exact id
  · exact fun hw => htrans _ _ _ hw (hf a w')

theorem closed_moves {σ : Type} {R : World σ → World σ → Prop} (hrefl : ∀ w, R w w)
    (htrans : ∀ u v w, R u v → R v w → R u w) : Closed (Moves R) where
  pure _ := hrefl
  fail _ := hrefl
  tell _ := hrefl
  world := hrefl
  bind hx hf := moves_bind htrans hx hf

end Action

/-! ## Properties of evaluations -/

namespace Session

/-- The property holds of what a session does to the world, and is kept when actions are put together. -/
structure Keeps {σ : Type} (s : Session σ) (P : (α : Type) → Action σ α → Prop) : Prop where
  closed : Action.Closed P
  read (path : Bytes) : P (Option Bytes) (s.read path)
  draw : P Nat Action.draw
  host {name : Bytes} {f : HostFunction σ} (h : s.functions[name]? = some (.host f))
    (arguments : List Value) : P Value (Action.onHost (f arguments))

namespace Keeps

variable {σ : Type} {s : Session σ} {P : (α : Type) → Action σ α → Prop} (h : s.Keeps P)
include h

theorem status (path : Bytes) : P Disk.Status (s.status path) :=
  h.closed.bind h.closed.world fun _ => h.closed.pure _

theorem list (path : Bytes) : P (Option (List Bytes)) (s.list path) := by
  refine h.closed.bind h.closed.world fun w => ?_
  split
  · exact h.closed.bind (h.closed.tell _) fun _ => h.closed.pure _
  · exact h.closed.bind (h.closed.tell _) fun _ => h.closed.pure _

theorem contentFor (function path : Bytes) : P Bytes (Function.contentFor function s path) := by
  refine h.closed.bind (h.read path) fun content? => ?_
  cases content? with
  | some content => exact h.closed.pure content
  | none => exact h.closed.fail _

theorem loadFiles (arguments : List Value) : P Value (Function.loadFiles s arguments) := by
  unfold Function.loadFiles
  dsimp only
  split
  · exact h.closed.fail _
  · refine h.closed.bind (h.closed.mapM fun argument _ => ?_) fun contents => h.closed.pure _
    refine h.closed.bind (h.status _) fun status => ?_
    split
    · exact h.closed.fail _
    · exact h.contentFor _ _

theorem loadFrom (directory extension : Bytes) :
    P Value (Function.loadFrom s directory extension) := by
  refine h.closed.bind (h.list directory) fun files? => ?_
  cases files? with
  | none => exact h.closed.fail _
  | some files =>
    refine h.closed.bind (h.closed.mapM fun file _ => ?_) fun entries => h.closed.pure _
    exact h.closed.bind (h.contentFor _ _) fun content => h.closed.pure _

theorem call {name : Bytes} {f : Function σ} (hf : s.functions[name]? = some f)
    (arguments : List Value) : P Value (f.call s arguments) := by
  cases f with
  | load => exact h.loadFiles arguments
  | loadDirectory =>
    match arguments with
    | [] => exact h.closed.fail _
    | [directory] => exact h.loadFrom _ _
    | [directory, extension] => exact h.loadFrom _ _
    | _ :: _ :: _ :: _ => exact h.closed.fail _
  | pick =>
    show P Value (if arguments.isEmpty then _ else _)
    split
    · exact h.closed.fail _
    · exact h.closed.bind h.draw fun n => h.closed.pure _
  | host g => exact h.host hf arguments

theorem callNamed (name : Bytes) (arguments : List Value) : P Value (s.callNamed name arguments) := by
  unfold Session.callNamed
  split
  · exact h.closed.fail _
  · rename_i f hf
    exact h.closed.bind (h.closed.tell _) fun _ => h.call hf arguments

section

variable {expand : Expander σ} (hexpand : ∀ env template, P Bytes (expand env template))
include hexpand

theorem valueOf (env : Environment) (slot : Slot) (v : Variable) :
    P Value (s.valueOf expand env slot v) := by
  unfold Session.valueOf
  split
  · exact h.closed.pure _
  · split
    · exact h.closed.pure _
    · refine h.closed.bind (h.closed.ofExcept _) fun env' => ?_
      exact h.closed.bind (hexpand env' _) fun text => h.closed.pure _
  · exact h.callNamed _ _
  · exact h.closed.fail _

theorem resolveSlot (env : Environment) (slot : Slot) :
    P (Option Value) (s.resolveSlot expand env slot) := by
  unfold Session.resolveSlot
  split
  · exact h.closed.pure _
  · refine h.closed.bind (h.closed.tell _) fun _ => ?_
    exact h.closed.bind (h.valueOf hexpand env slot _) fun value => h.closed.pure _

theorem fillSlot (env : Environment) (text : Bytes) (slot : Span × Slot) :
    P Bytes (s.fillSlot expand env text slot) := by
  refine h.closed.bind (h.resolveSlot hexpand env slot.2) fun value? => ?_
  cases value? with
  | none => exact h.closed.pure text
  | some value =>
    refine h.closed.bind (h.closed.ofExcept _) fun computed => ?_
    dsimp only
    split
    · exact h.closed.fail _
    · split
      · exact h.closed.pure _
      · exact h.closed.fail _

theorem renderDocumentWith (depth : Int) (env : Environment) (d : Document) :
    P Bytes (s.renderDocumentWith expand depth env d) := by
  refine h.closed.bind (h.closed.ofExcept _) fun env' => ?_
  refine h.closed.bind (h.closed.tell _) fun _ => ?_
  refine h.closed.bind (h.closed.foldlM (fun text slot _ => ?_) d.text) fun text => h.closed.pure _
  exact h.fillSlot hexpand env' text slot

end

theorem checkNames (depth : Int) (env : Environment) : P Unit (s.checkNames depth env) := by
  unfold Session.checkNames
  split
  · exact h.closed.fail _
  · exact h.closed.pure _

/-- Induction on the levels that are left. -/
theorem renderNested (levels : Nat) (depth : Int) (env : Environment) (template : Bytes) :
    P Bytes (s.renderNested levels depth env template) := by
  induction levels generalizing depth env template with
  | zero =>
    rw [Session.renderNested]
    refine h.closed.bind (h.checkNames depth env) fun _ => ?_
    split
    · exact h.closed.pure _
    · exact h.closed.bind (h.closed.tell _) fun _ => h.closed.pure _
  | succ levels ih =>
    rw [Session.renderNested]
    refine h.closed.bind (h.checkNames depth env) fun _ => ?_
    split
    · exact h.closed.pure _
    · refine h.closed.bind (h.closed.tell _) fun _ => ?_
      refine h.closed.bind (h.closed.ofExcept _) fun d => ?_
      exact h.renderDocumentWith (ih (depth + 1)) depth env d

theorem render (depth : Int) (env : Environment) (template : Bytes) :
    P Bytes (s.render depth env template) :=
  h.renderNested _ depth env template

end Keeps

end Session

/-! ## The disk and the cache -/

/-- The second world is the first after files were read: the disk is the same, and the cache has all
that it had and, of each file it has more of, what the disk holds. -/
structure World.Reads {σ : Type} (before after : World σ) : Prop where
  disk : after.disk = before.disk
  kept {path content : Bytes} (h : before.cache[path]? = some content) :
    after.cache[path]? = some content
  fresh {path content : Bytes} (h : after.cache[path]? = some content) :
    before.cache[path]? = some content ∨ before.disk.read path = .ok content

namespace World.Reads

variable {σ : Type} {u v w : World σ}

theorem refl (w : World σ) : w.Reads w := ⟨rfl, id, .inl⟩

theorem trans (huv : u.Reads v) (hvw : v.Reads w) : u.Reads w where
  disk := hvw.disk.trans huv.disk
  kept h := hvw.kept (huv.kept h)
  fresh h := by
    rcases hvw.fresh h with h | h
    · exact huv.fresh h
    · exact .inr (huv.disk ▸ h)

theorem closed (σ : Type) : Action.Closed (Action.Moves (World.Reads (σ := σ))) :=
  Action.closed_moves refl fun _ _ _ => trans

end World.Reads

namespace Session

variable {σ : Type} (s : Session σ)

/-- What reading a file comes to: what is in the cache, or what is on the disk, which is in the cache
from then on. -/
theorem read_cases (path : Bytes) (w : World σ) :
    (∃ content, w.cache[s.resolve path]? = some content ∧ s.read path w = ⟨.ok (some content), w, []⟩) ∨
    (w.cache[s.resolve path]? = none ∧ ∃ content, w.disk.read (s.resolve path) = .ok content ∧
      s.read path w =
        ⟨.ok (some content), { w with cache := w.cache.insert (s.resolve path) content }, []⟩) ∨
    (w.cache[s.resolve path]? = none ∧ ∃ event, w.disk.read (s.resolve path) = .error event ∧
      s.read path w = ⟨.ok none, w, [event]⟩) := by
  rw [read, Action.world_bind]
  cases hcache : w.cache[s.resolve path]? with
  | some content => exact .inl ⟨content, rfl, rfl⟩
  | none =>
    cases hdisk : w.disk.read (s.resolve path) with
    | ok content => exact .inr (.inl ⟨rfl, content, rfl, rfl⟩)
    | error event => exact .inr (.inr ⟨rfl, event, rfl, rfl⟩)

theorem reads_read (path : Bytes) : Action.Moves World.Reads _ (s.read path) := by
  intro w
  rcases s.read_cases path w with
    ⟨content, -, hread⟩ | ⟨hnone, content, hdisk, hread⟩ | ⟨-, event, -, hread⟩
  · rw [hread]
    exact .refl w
  · rw [hread]
    refine ⟨rfl, fun {p _} h => ?_, fun {p _} h => ?_⟩
    · by_cases hp : s.resolve path = p
      · rw [← hp, hnone] at h
        cases h
      · simpa [Std.ExtTreeMap.getElem?_insert, hp] using h
    · by_cases hp : s.resolve path = p
      · obtain rfl : content = _ := by simpa [Std.ExtTreeMap.getElem?_insert, hp] using h
        exact .inr (hp ▸ hdisk)
      · exact .inl (by simpa [Std.ExtTreeMap.getElem?_insert, hp] using h)
  · rw [hread]
    exact .refl w

/-- Evaluations change the world in no other way than by reading files. -/
theorem keeps_reads : s.Keeps (Action.Moves World.Reads) where
  closed := World.Reads.closed σ
  read := s.reads_read
  draw _ := ⟨rfl, id, .inl⟩
  host _ _ _ := ⟨rfl, id, .inl⟩

end Session

end Stencil
