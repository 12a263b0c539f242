import Stencil.Normalizer

/-!
# No visible byte is lost

The normalizer drops blank bytes, holds them back and lets them out later, also behind text that came out as it
is in the meantime; the bytes that are not blank (`Bytes.visible`) come out at once and in order. What is held
back is blank, and nothing is held back before anything has come out (`Holds`), so letting it out adds nothing
visible, and neither does a run of newlines that is cut (`Bytes.visible_squeezeNewlines`). Each step keeps that
(`Formatter.shows_step`), and by induction every run does (`Formatter.shows_run`), however often normalizing is
switched on and off. The main statement is `Formatter.run_keeps_visible`.
-/

namespace Stencil

open Ascii

namespace Bytes

/-- The bytes that are not blank, in order. -/
def visible (s : Bytes) : Bytes := s.filter fun b => !Ascii.isBlank b

@[simp] theorem visible_append (s t : Bytes) : visible (s ++ t) = visible s ++ visible t :=
  List.filter_append ..

theorem visible_cons_of_isBlank {b : UInt8} (h : Ascii.isBlank b) (s : Bytes) :
    visible (b :: s) = visible s :=
  List.filter_cons_of_neg (by simp [h])

theorem visible_cons_of_not_isBlank {b : UInt8} (h : Ascii.isBlank b = false) (s : Bytes) :
    visible (b :: s) = b :: visible s :=
  List.filter_cons_of_pos (by simp [h])

theorem visible_of_isBlank {s : Bytes} (h : ∀ b ∈ s, Ascii.isBlank b) : visible s = [] :=
  List.filter_eq_nil_iff.mpr fun b hb => by simp [h b hb]

/-- Only newlines are cut out of a run of newlines. -/
theorem visible_squeezeNewlines (seen : Nat) (s : Bytes) : visible (squeezeNewlines seen s) = visible s := by
  have hnewline : Ascii.isBlank newline := by decide
  fun_induction squeezeNewlines seen s with
  | case1 => rfl
  | case2 seen rest hseen ih =>
    rw [visible_cons_of_isBlank hnewline, visible_cons_of_isBlank hnewline, ih]
  | case3 seen rest hseen ih => rw [visible_cons_of_isBlank hnewline, ih]
  | case4 seen b rest hb ih =>
    simp only [visible, List.filter_cons] at ih ⊢
    rw [ih]

end Bytes

namespace Normalizer

/-! ## What is held back -/

/-- Only blank bytes are held back, and none before anything has come out. -/
structure Holds (started : Bool) (held : Bytes) : Prop where
  isBlank : ∀ b ∈ held, Ascii.isBlank b
  started : held ≠ [] → started

theorem Holds.nil (started : Bool) : Holds started [] := ⟨by simp, fun h => absurd rfl h⟩

theorem Holds.reverse {started : Bool} {held : Bytes} (h : Holds started held) : Holds started held.reverse :=
  ⟨fun b hb => h.isBlank b (List.mem_reverse.mp hb), fun hne => h.started (by simpa using hne)⟩

/-- A blank byte is held back once anything has come out. -/
theorem Holds.blank {started : Bool} {held : Bytes} (h : Holds started held) {b : UInt8}
    (hb : Ascii.isBlank b) : Holds started (if started then b :: held else held) := by
  cases started with
  | false => exact h
  | true => exact ⟨List.forall_mem_cons.mpr ⟨hb, h.isBlank⟩, fun _ => rfl⟩

theorem holds_feed {started : Bool} {held : Bytes} (h : Holds started held) (s : Bytes) :
    Holds (feed started held s).2.1 (feed started held s).2.2 := by
  fun_induction feed started held s with
  | case1 started held => exact h
  | case2 started held b rest hb ih => exact ih (h.blank hb)
  | case3 started held b rest hb out state heq ih =>
    have hstate := ih (.nil true)
    rwa [heq] at hstate

/-- What was held back adds nothing visible when it comes out. -/
theorem visible_feed {started : Bool} {held : Bytes} (h : Holds started held) (s : Bytes) :
    Bytes.visible (feed started held s).1 = Bytes.visible s := by
  fun_induction feed started held s with
  | case1 => rfl
  | case2 started held b rest hb ih => rw [ih (h.blank hb), Bytes.visible_cons_of_isBlank hb]
  | case3 started held b rest hb out state heq ih =>
    have hout := ih (.nil true)
    rw [heq] at hout
    have hheld : Bytes.visible held.reverse = [] := Bytes.visible_of_isBlank h.reverse.isBlank
    have hvisible : Ascii.isBlank b = false := by simpa using hb
    rw [Bytes.visible_append, Bytes.visible_squeezeNewlines, hheld, List.nil_append,
      Bytes.visible_cons_of_not_isBlank hvisible, hout, Bytes.visible_cons_of_not_isBlank hvisible]

/-! ## What has come out -/

/-- What has come out has the visible bytes of what was written, and what is held back is in order. -/
structure Shows (n : Normalizer) (written : Bytes) : Prop where
  visible : Bytes.visible n.content = Bytes.visible written
  holds : Holds n.started n.pending

theorem shows_empty : Shows {} [] := ⟨rfl, .nil false⟩

theorem Shows.write {n : Normalizer} {written : Bytes} (h : n.Shows written) (normalize : Bool)
    (text : Bytes) : (n.write normalize text).Shows (written ++ text) := by
  have hheld := h.holds.reverse
  cases normalize with
  | false =>
    refine ⟨?_, h.holds⟩
    show Bytes.visible (n.content ++ text) = _
    rw [Bytes.visible_append, h.visible, Bytes.visible_append]
  | true =>
    refine ⟨?_, (holds_feed hheld text).reverse⟩
    show Bytes.visible (n.content ++ (feed n.started n.pending.reverse text).1) = _
    rw [Bytes.visible_append, h.visible, visible_feed hheld, Bytes.visible_append]

theorem Shows.finish {n : Normalizer} {written : Bytes} (h : n.Shows written) : n.finish.Shows written :=
  ⟨h.visible, .nil _⟩

end Normalizer

/-! ## Runs -/

/-- A normalizer that is switched on and off: while it is off, text comes out as it is. -/
structure Formatter where
  normalize : Bool := false
  normalizer : Normalizer := {}
  deriving DecidableEq, Repr

namespace Formatter

inductive Step where
  | write (text : Bytes)
  | finish
  | switch (normalize : Bool)
  deriving DecidableEq, Repr

/-- The text that a step writes. -/
def Step.text : Step → Bytes
  | write text => text
  | finish | switch _ => []

def step (f : Formatter) : Step → Formatter
  | .write text => { f with normalizer := f.normalizer.write f.normalize text }
  | .finish => { f with normalizer := f.normalizer.finish }
  | .switch normalize => { f with normalize }

theorem shows_step {f : Formatter} {written : Bytes} (h : f.normalizer.Shows written) (s : Step) :
    (f.step s).normalizer.Shows (written ++ s.text) := by
  cases s with
  | write text => exact h.write f.normalize text
  | finish =>
    rw [Step.text, List.append_nil]
    exact h.finish
  | switch normalize =>
    rw [Step.text, List.append_nil]
    exact h

theorem shows_run {f : Formatter} {written : Bytes} (h : f.normalizer.Shows written) (steps : List Step) :
    (steps.foldl step f).normalizer.Shows (written ++ steps.flatMap Step.text) := by
  induction steps generalizing f written with
  | nil => simpa using h
  | cons s steps ih =>
    rw [List.foldl_cons, List.flatMap_cons, ← List.append_assoc]
    exact ih (shows_step h s)

/-- Whatever is written, ended and switched, and in whatever order, the visible bytes that have come out are
those that were written, in order; what is held back is blank, and nothing is before anything has come out. -/
theorem run_keeps_visible (steps : List Step) :
    let n := (steps.foldl step {}).normalizer
    Bytes.visible n.content = Bytes.visible (steps.flatMap Step.text) ∧ (∀ b ∈ n.pending, Ascii.isBlank b) ∧
      (n.pending ≠ [] → n.started) := by
  have hshows := shows_run (f := {}) Normalizer.shows_empty steps
  exact ⟨hshows.visible, hshows.holds.isBlank, hshows.holds.started⟩

/-- A blank that is held back comes out behind what is written past it. -/
example :
    ([.switch true, .write (Bytes.ofString "a "), .switch false, .write (Bytes.ofString "b"), .switch true,
      .write (Bytes.ofString "c")].foldl step {}).normalizer.content = Bytes.ofString "ab c" := by decide

end Formatter

end Stencil
