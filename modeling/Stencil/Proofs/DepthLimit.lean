import Stencil.Render

/-!
# Raising the limit

The limit of a session matters where a template is passed through, and nowhere else: functions, files
and bindings do not see it (`Function.call_limit`). What stays within the limit (`WithinLimit`) is
therefore done in the same way, event by event, under a higher one. `Action.RefinedBy` says this of two
actions and is kept by what actions are put together with (`RefinedBy.bind`, `RefinedBy.foldlM`), and
`refinedBy_renderNested` follows the levels that are left. The main statement is
`render_eq_of_withinLimit`.
-/

namespace Stencil

variable {σ α β : Type}

/-- Whether a template is passed through because it is nested too deep. -/
def Event.isPassedThrough : Event → Bool
  | .step _ (.passedThrough _ _) => true
  | _ => false

/-- No template was passed through on the way. -/
def Outcome.WithinLimit (o : Outcome σ α) : Prop := ∀ event ∈ o.events, event.isPassedThrough = false

instance (o : Outcome σ α) : Decidable o.WithinLimit :=
  inferInstanceAs (Decidable (∀ event ∈ o.events, event.isPassedThrough = false))

/-! ## Actions that do the same within the limit -/

namespace Action

/-- Wherever the first action stays within the limit, the second does the same. -/
def RefinedBy (x y : Action σ α) : Prop := ∀ w, (x w).WithinLimit → y w = x w

namespace RefinedBy

theorem refl (x : Action σ α) : RefinedBy x x := fun _ _ => rfl

theorem bind {x y : Action σ α} {f g : α → Action σ β} (h : RefinedBy x y)
    (hf : ∀ a, RefinedBy (f a) (g a)) : RefinedBy (x >>= f) (y >>= g) := by
  intro w hw
  show Action.bind y g w = Action.bind x f w
  replace hw : (Action.bind x f w).WithinLimit := hw
  specialize h w
  rw [Action.bind] at hw ⊢
  rcases hx : x w with ⟨failure | a, w', events⟩
  · rw [hx] at h hw
    rw [h hw, Action.bind, hx]
  · rw [hx] at h hw
    -- The events of `x` and those of `f a` come one after the other, and all are within the limit.
    have hevents := List.forall_mem_append.mp hw
    rw [h hevents.1, Action.bind, hx]
    dsimp only
    rw [hf a w' hevents.2]

theorem foldlM {f g : β → α → Action σ β} (h : ∀ b a, RefinedBy (f b a) (g b a)) (l : List α)
    (b : β) : RefinedBy (l.foldlM f b) (l.foldlM g b) := by
  induction l generalizing b with
  | nil => exact .refl _
  | cons a l ih => exact (h b a).bind ih

/-- An action that passes a template through is not within the limit. -/
theorem of_passedThrough {shown : Bool} {depth limit : Int} {x y : Action σ α} :
    RefinedBy (do tell (.step shown (.passedThrough depth limit)); x) y := fun _ hw =>
  nomatch hw (.step shown (.passedThrough depth limit)) (List.mem_cons_self ..)

end RefinedBy

end Action

open Stencil.Action (RefinedBy)

/-- Templates that the first renders within the limit are rendered by the second in the same way. -/
def Expander.RefinedBy (expand expand' : Expander σ) : Prop :=
  ∀ env template, Action.RefinedBy (expand env template) (expand' env template)

/-! ## Sessions that differ in their limits -/

variable (s : Session σ) (limit : Int)

theorem Function.call_limit (arguments : List Value) (f : Function σ) :
    f.call { s with limit } arguments = f.call s arguments := by
  cases f <;> rfl

namespace Session

theorem callNamed_limit (name : Bytes) (arguments : List Value) :
    callNamed { s with limit } name arguments = s.callNamed name arguments := by
  unfold callNamed
  simp only [Function.call_limit]

theorem referent?_limit (env : Environment) (slot : Slot) :
    referent? { s with limit } env slot = s.referent? env slot := rfl

variable {s limit} {expand expand' : Expander σ}

theorem refinedBy_valueOf (h : expand.RefinedBy expand') (env : Environment) (slot : Slot)
    (v : Variable) :
    RefinedBy (s.valueOf expand env slot v) (valueOf { s with limit } expand' env slot v) := by
  unfold valueOf
  cases v.kind with
  | number => exact .refl _
  | unknown => exact .refl _
  | function =>
    simp only [callNamed_limit]
    exact .refl _
  | text =>
    dsimp only
    split
    · exact .refl _
    · exact (RefinedBy.refl _).bind fun env' => (h env' v.value.write).bind fun text => .refl _

theorem refinedBy_resolveSlot (h : expand.RefinedBy expand') (env : Environment) (slot : Slot) :
    RefinedBy (s.resolveSlot expand env slot) (resolveSlot { s with limit } expand' env slot) := by
  rw [resolveSlot, resolveSlot, referent?_limit s limit]
  cases s.referent? env slot with
  | none => exact .refl _
  | some v =>
    exact (RefinedBy.refl _).bind fun _ => (refinedBy_valueOf h env slot v).bind fun _ => .refl _

theorem refinedBy_fillSlot (h : expand.RefinedBy expand') (env : Environment) (text : Bytes)
    (slot : Span × Slot) :
    RefinedBy (s.fillSlot expand env text slot) (fillSlot { s with limit } expand' env text slot) :=
  (refinedBy_resolveSlot h env slot.2).bind fun _ => .refl _

theorem refinedBy_renderDocumentWith (h : expand.RefinedBy expand') (depth : Int)
    (env : Environment) (d : Document) :
    RefinedBy (s.renderDocumentWith expand depth env d)
      (renderDocumentWith { s with limit } expand' depth env d) :=
  (RefinedBy.refl (s.bind env d)).bind fun env' => (RefinedBy.refl _).bind fun _ =>
    (RefinedBy.foldlM (refinedBy_fillSlot h env') d.slotsFromEnd d.text).bind fun _ => .refl _

/-- Induction on the levels that are left under the lower limit: where none is left, a template is
blank or is passed through. -/
theorem refinedBy_renderNested {levels levels' : Nat} (hlevels : levels ≤ levels') (depth : Int) :
    Expander.RefinedBy (s.renderNested levels depth) (renderNested { s with limit } levels' depth) := by
  induction levels generalizing levels' depth with
  | zero =>
    intro env template
    unfold renderNested
    refine (RefinedBy.refl (s.checkNames depth env)).bind fun _ => ?_
    split
    · exact .refl _
    · exact .of_passedThrough
  | succ levels ih =>
    intro env template
    obtain ⟨levels', rfl⟩ : ∃ n, levels' = n + 1 := ⟨levels' - 1, by omega⟩
    rw [renderNested, renderNested]
    refine (RefinedBy.refl (s.checkNames depth env)).bind fun _ => ?_
    split
    · exact .refl _
    · refine (RefinedBy.refl _).bind fun _ => (RefinedBy.refl _).bind fun d => ?_
      exact refinedBy_renderDocumentWith (ih (Nat.le_of_succ_le_succ hlevels) (depth + 1)) depth env d

theorem levelsAt_le (h : s.limit ≤ limit) (depth : Int) :
    s.levelsAt depth ≤ levelsAt { s with limit } depth := by
  unfold levelsAt
  dsimp only
  omega

/-- A template that is rendered without reaching the limit is rendered in the same way under every
higher limit: with the same result or failure, the same calls and other events, and the same world
after it. Functions of the host look at their arguments and at the state of the host, and so never at the limit
(`HostFunction`). -/
theorem render_eq_of_withinLimit (s : Session σ) {limit : Int} (hlimit : s.limit ≤ limit) (depth : Int)
    (env : Environment) (template : Bytes) (w : World σ)
    (h : (s.render depth env template w).WithinLimit) :
    render { s with limit } depth env template w = s.render depth env template w :=
  refinedBy_renderNested (levelsAt_le hlimit depth) depth env template w h

/-! A session that evaluates templates one level deep, with a function that counts its calls, and a
template that calls it at that depth. -/

def counting : Session Nat where
  limit := 1
  functions :=
    (Registry.builtin Nat).insert (Bytes.ofString "next")
      (.host fun _ calls => (.ok (.text (Bytes.ofNat calls)), calls + 1))

def nested : Environment :=
  (∅ : Environment).insert (Bytes.ofString "x")
    { kind := .text, value := .text (Bytes.ofString "\x7b\x7bnext()\x7d\x7d") }

theorem render_eq_of_withinLimit_of_nested :
    counting.limit ≤ 5 ∧
      (counting.render 0 nested (Bytes.ofString "\x7b\x7bx\x7d\x7d") { disk := .empty, host := 0 }).WithinLimit ∧
      render { counting with limit := 5 } 0 nested (Bytes.ofString "\x7b\x7bx\x7d\x7d") { disk := .empty, host := 0 } =
        counting.render 0 nested (Bytes.ofString "\x7b\x7bx\x7d\x7d") { disk := .empty, host := 0 } :=
  have hlimit : counting.limit ≤ 5 := by decide
  have h : (counting.render 0 nested (Bytes.ofString "\x7b\x7bx\x7d\x7d")
      { disk := .empty, host := 0 }).WithinLimit := by decide +kernel
  ⟨hlimit, h, render_eq_of_withinLimit counting hlimit 0 nested _ _ h⟩

end Session

end Stencil
