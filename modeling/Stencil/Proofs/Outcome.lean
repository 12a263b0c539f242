import Stencil.Action

/-!
# How actions end

An action that consists of two succeeds when both do, the second in the world that the first leaves
behind (`result_bind_eq_ok`). `Ends` says what an action can end in whatever the world is: which
results it can give, and how it can fail. An action that consists of two ends as the second does, or
fails as the first does (`Ends.bind`).
-/

namespace Stencil.Action

variable {σ α β : Type}

theorem result_bind_eq_ok {x : Action σ α} {f : α → Action σ β} {w : World σ} {b : β} :
    ((x >>= f) w).result = .ok b ↔
      ∃ a, (x w).result = .ok a ∧ (f a (x w).world).result = .ok b := by
  show (Action.bind x f w).result = .ok b ↔ _
  rw [Action.bind]
  rcases x w with ⟨_ | a, w', events⟩ <;> simp

theorem result_pure_eq_ok {w : World σ} {a b : α} :
    ((pure a : Action σ α) w).result = .ok b ↔ a = b := Except.ok.injEq a b ▸ Iff.rfl

theorem result_tell_bind {event : Event} {x : Action σ α} {w : World σ} :
    ((do tell event; x) w).result = (x w).result := rfl

theorem result_bind_eq_error {x : Action σ α} {f : α → Action σ β} {w : World σ} {failure : Failure} :
    ((x >>= f) w).result = .error failure ↔
      (x w).result = .error failure ∨
        ∃ a, (x w).result = .ok a ∧ (f a (x w).world).result = .error failure := by
  show (Action.bind x f w).result = .error failure ↔ _
  rw [Action.bind]
  rcases x w with ⟨_ | a, w', events⟩ <;> simp

/-! ## In whatever world -/

/-- Whatever the world is, the action gives a result of this kind or fails in this way. -/
structure Ends (P : α → Prop) (E : Failure → Prop) (x : Action σ α) : Prop where
  ok : ∀ w a, (x w).result = .ok a → P a
  error : ∀ w failure, (x w).result = .error failure → E failure

namespace Ends

variable {P : α → Prop} {Q : β → Prop} {E : Failure → Prop}

theorem pure {a : α} (h : P a) : Ends P E (Pure.pure a : Action σ α) where
  ok _ _ hb := result_pure_eq_ok.mp hb ▸ h
  error _ _ he := nomatch he

theorem fail {failure : Failure} (h : E failure) : Ends P E (fail failure : Action σ α) where
  ok _ _ hb := nomatch hb
  error _ _ he := Except.error.inj he ▸ h

theorem ofExcept {x : Except Failure α} (hok : ∀ a, x = .ok a → P a)
    (herror : ∀ failure, x = .error failure → E failure) :
    Ends P E (ofExcept x : Action σ α) := by
  cases x with
  | ok a => exact .pure (hok a rfl)
  | error failure => exact .fail (herror failure rfl)

theorem bind {x : Action σ α} {f : α → Action σ β} (hx : Ends P E x) (hf : ∀ a, P a → Ends Q E (f a)) :
    Ends Q E (x >>= f) where
  ok w b hb := by
    obtain ⟨a, ha, hb⟩ := result_bind_eq_ok.mp hb
    exact (hf a (hx.ok w a ha)).ok _ b hb
  error w failure he := by
    rcases result_bind_eq_error.mp he with he | ⟨a, ha, he⟩
    · exact hx.error w failure he
    · exact (hf a (hx.ok w a ha)).error _ failure he

theorem tell_bind {event : Event} {x : Action σ α} (h : Ends P E x) :
    Ends P E (do tell event; x) where
  ok := h.ok
  error := h.error

/-- The world as it is can be anything. -/
theorem world_bind {f : World σ → Action σ α} (h : ∀ w, Ends P E (f w)) :
    Ends P E (world >>= f) :=
  bind (P := fun _ => True) ⟨fun _ _ _ => trivial, fun _ _ he => nomatch he⟩ fun w _ => h w

/-- So can a number that is drawn. -/
theorem draw_bind {f : Nat → Action σ α} (h : ∀ n, Ends P E (f n)) : Ends P E (draw >>= f) :=
  bind (P := fun _ => True) ⟨fun _ _ _ => trivial, fun _ _ he => nomatch he⟩ fun n _ => h n

theorem remember_bind {path content : Bytes} {x : Action σ α} (h : Ends P E x) :
    Ends P E (do remember path content; x) :=
  bind (P := fun _ => True) ⟨fun _ _ _ => trivial, fun _ _ he => nomatch he⟩ fun _ _ => h

theorem mapM {f : α → Action σ β} {l : List α} (h : ∀ a ∈ l, Ends (fun _ => True) E (f a)) :
    Ends (fun _ => True) E (l.mapM f) := by
  induction l with
  | nil => exact .pure trivial
  | cons a l ih =>
    rw [List.forall_mem_cons] at h
    rw [List.mapM_cons]
    exact h.1.bind fun b _ => (ih h.2).bind fun bs _ => .pure trivial

end Ends

end Stencil.Action
