import Stencil.Proofs.Ranges
import Stencil.View

/-!
# Views stay inside

A view is a range of its buffer (`View.Inside`). Whatever is taken of a view is a part of its range
(`View.PartOf`), and a view that moves only loses bytes at its front (`View.AheadOf`), as long as no sum of
positions is too large for a word (`View.Step.Fits`). What stands under a number after a step is said in one
equation (`Views.getElem?_step`): the view that the step makes, what it leaves of the view that it is taken on,
or what stood there before. So by induction on a run all views stay ranges of the one text. What is read of a
view are bytes in its range (`View.ReadsWithin`). The main statement is `Views.run_inside`.
-/

namespace Stencil

namespace View

variable {text : Bytes} {v : View}

/-! ## Ranges -/

/-- The view is a range of this text. -/
structure Inside (text : Bytes) (v : View) : Prop where
  buffer : v.buffer = text
  start_le : v.start ≤ v.stop
  stop_le : v.stop ≤ text.length

/-- The first view is a range in the range of the second. -/
structure PartOf (part v : View) : Prop where
  buffer : part.buffer = v.buffer
  start_le : v.start ≤ part.start
  ordered : part.start ≤ part.stop
  stop_le : part.stop ≤ v.stop

/-- The first view is the second with its start moved forward, up to its end at most. -/
structure AheadOf (later v : View) : Prop where
  buffer : later.buffer = v.buffer
  stop : later.stop = v.stop
  start_le : v.start ≤ later.start
  start_le_stop : later.start ≤ v.stop

theorem inside_ofBytes (text : Bytes) : (ofBytes text).Inside text := ⟨rfl, Nat.zero_le _, Nat.le_refl _⟩

theorem PartOf.inside {part : View} (h : part.PartOf v) (hv : v.Inside text) : part.Inside text where
  buffer := h.buffer.trans hv.buffer
  start_le := h.ordered
  stop_le := Nat.le_trans h.stop_le hv.stop_le

theorem AheadOf.partOf {later : View} (h : later.AheadOf v) : later.PartOf v where
  buffer := h.buffer
  start_le := h.start_le
  ordered := h.stop ▸ h.start_le_stop
  stop_le := Nat.le_of_eq h.stop

namespace Inside

variable (h : v.Inside text)
include h

theorem aheadOf_self : v.AheadOf v := ⟨rfl, rfl, Nat.le_refl _, h.start_le⟩

theorem toBytes_eq : v.toBytes = Span.slice ⟨v.start, v.stop⟩ text := by
  rw [toBytes, h.buffer, Span.slice]

theorem length_toBytes : v.toBytes.length = v.length := by
  rw [toBytes, h.buffer, List.length_drop, List.length_take, Nat.min_eq_left h.stop_le, length]

theorem getElem?_toBytes (k : Nat) : v.toBytes[k]? = if k < v.length then text[v.start + k]? else none := by
  rw [toBytes, h.buffer, List.getElem?_drop, List.getElem?_take, length]
  have hrange : v.start + k < v.stop ↔ k < v.stop - v.start := by omega
  simp only [hrange]

/-! ## What is taken of a view -/

theorem partOf_slice {offset length : Nat} (hfits : v.start + offset + length < UInt64.size) :
    (v.slice offset length).PartOf v := by
  have hstart : wrap (v.start + offset) = v.start + offset := Nat.mod_eq_of_lt (by omega)
  have hstop : wrap (v.start + offset + length) = v.start + offset + length := Nat.mod_eq_of_lt hfits
  have hordered := h.start_le
  constructor <;> simp only [slice, hstart, hstop] <;> omega

theorem consumed_le (stop : UInt8) (escaped escapes : Bool) :
    v.start + (splitUnescaped stop escapes escaped v.toBytes).1.length ≤ v.stop := by
  have happend := congrArg List.length (append_splitUnescaped stop escapes escaped v.toBytes)
  rw [List.length_append, h.length_toBytes, length] at happend
  have hordered := h.start_le
  omega

theorem partOf_consume (stop : UInt8) (escaped escapes : Bool) : (v.consume stop escaped escapes).1.PartOf v where
  buffer := rfl
  start_le := Nat.le_refl _
  ordered := Nat.le_add_right ..
  stop_le := h.consumed_le stop escaped escapes

/-! ## Moving forward -/

theorem aheadOf_consume (stop : UInt8) (escaped escapes : Bool) :
    (v.consume stop escaped escapes).2.AheadOf v where
  buffer := rfl
  stop := rfl
  start_le := Nat.le_add_right ..
  start_le_stop := h.consumed_le stop escaped escapes

theorem aheadOf_advance : v.advance.AheadOf v := by
  unfold advance
  split
  · rename_i hlt
    exact ⟨rfl, rfl, Nat.le_succ _, hlt⟩
  · exact h.aheadOf_self

theorem aheadOf_skip {n : Nat} (hfits : v.start + n < UInt64.size) : (v.skip n).AheadOf v := by
  have hwrap : wrap (v.start + n) = v.start + n := Nat.mod_eq_of_lt hfits
  have hordered := h.start_le
  constructor <;> simp only [skip, hwrap] <;> omega

theorem aheadOf_trim : v.trim.AheadOf v := by
  have hlength := (List.takeWhile_prefix Ascii.isBlank (l := v.toBytes)).length_le
  rw [h.length_toBytes, length] at hlength
  have hordered := h.start_le
  constructor <;> simp only [trim] <;> omega

end Inside

/-! ## What is read -/

/-- What is read of a view are bytes in its range of the text: the byte at a place that is not negative, if the
range reaches so far; at a negative place the byte at the remainder of the place by the length, if there are
any bytes; and as many bytes from a place on as the bytes have that they are compared with. -/
structure ReadsWithin (text : Bytes) (v : View) : Prop where
  byteAt (n : Nat) : v.byteAt? n = if v.start + n < v.stop then text[v.start + n]? else none
  byteAt_of_neg (n : Int) (hn : n < 0) (hne : v.start < v.stop) :
    ∃ (place : Nat) (b : UInt8), place = n % (v.stop - v.start : Nat) ∧ v.start + place < v.stop ∧
      text[v.start + place]? = some b ∧ v.byteAt? n = some b
  byteAt_of_empty (n : Int) (hempty : v.start = v.stop) : v.byteAt? n = none
  matchesAt (s : Bytes) (place : Nat) (hfits : v.start + place < UInt64.size) : v.matchesAt s place ↔
    v.start + place + s.untilNul.length ≤ v.stop ∧
      ∀ k, k < s.untilNul.length → text[v.start + place + k]? = s.untilNul[k]?

theorem Inside.readsWithin (h : v.Inside text) : v.ReadsWithin text where
  byteAt n := by
    have hrange : n < v.length ↔ v.start + n < v.stop := by rw [length]; omega
    rw [byteAt?, if_neg (Int.not_lt.mpr (Int.natCast_nonneg n)), Int.toNat_natCast, h.getElem?_toBytes]
    by_cases hempty : v.length = 0
    · rw [if_pos hempty, if_neg fun hn => by omega]
    · simp only [if_neg hempty, hrange]
  byteAt_of_neg n hn hne := by
    have hlength : 0 < v.length := Nat.sub_pos_of_lt hne
    have hnonneg := Int.emod_nonneg n (b := v.length) (by omega)
    have hmod := Int.emod_lt_of_pos n (b := v.length) (by omega)
    have hplace : (n % v.length).toNat < v.length := by omega
    have hinside : v.start + (n % v.length).toNat < v.stop := by rw [length] at hplace ⊢; omega
    have hbyte := List.getElem?_eq_getElem (Nat.lt_of_lt_of_le hinside h.stop_le)
    refine ⟨_, _, Int.toNat_of_nonneg hnonneg, hinside, hbyte, ?_⟩
    rw [byteAt?, if_neg (Nat.ne_of_gt hlength), if_pos hn, h.getElem?_toBytes, if_pos hplace, hbyte]
  byteAt_of_empty n hempty := if_pos (by rw [length, hempty, Nat.sub_self])
  matchesAt s place hfits := by
    have hwrap : wrap (v.start + place) = v.start + place := Nat.mod_eq_of_lt hfits
    simp only [matchesAt, hwrap, h.buffer, Bool.and_eq_true, decide_eq_true_eq, List.isPrefixOf_iff_prefix,
      List.prefix_iff_getElem?, List.getElem?_drop]
    refine and_congr_right fun _ => forall_congr' fun k => forall_congr' fun hk => ?_
    rw [List.getElem?_eq_getElem hk]

/-! ## Steps -/

namespace Step

/-- A step that can be taken on this view while it stays a range of one text: it makes no view of another text,
and the sums of positions that it takes fit into a word. -/
def Fits (v : View) : Step → Prop
  | make .. => False
  | slice offset length _ => v.start + offset + length < UInt64.size
  | skip n => v.start + n < UInt64.size
  | matchesAt _ place => v.start + place < UInt64.size
  | copy _ | consume .. | advance | trim | byteAt _ | drop => True

/-- The number under which the view is kept that a step makes. -/
def target? : Step → Option Nat
  | make _ target | copy target | slice _ _ target | consume _ _ _ target => some target
  | advance | skip _ | trim | byteAt _ | matchesAt .. | drop => none

/-- Does the step move the view that it is taken on? -/
def moves : Step → Bool
  | consume .. | advance | skip _ | trim => true
  | make .. | copy _ | slice .. | byteAt _ | matchesAt .. | drop => false

/-- The view that a step makes. -/
def made? (v : View) : Step → Option View
  | make text _ => some (.ofBytes text)
  | copy _ => some v
  | slice offset length _ => some (v.slice offset length)
  | consume stop escaped escapes _ => some (v.consume stop escaped escapes).1
  | advance | skip _ | trim | byteAt _ | matchesAt .. | drop => none

/-- What a step leaves of the view that it is taken on. -/
def left? (v : View) : Step → Option View
  | consume stop escaped escapes _ => some (v.consume stop escaped escapes).2
  | advance => some v.advance
  | skip n => some (v.skip n)
  | trim => some v.trim
  | make .. | copy _ | slice .. | byteAt _ | matchesAt .. => some v
  | drop => none

variable {step : Step}

theorem left?_of_not_moves (hmoves : step.moves = false) (hdrop : step ≠ .drop) : step.left? v = some v := by
  cases step with
  | drop => exact absurd rfl hdrop
  | consume | advance | skip | trim => cases hmoves
  | _ => rfl

theorem exists_left? (hmoves : step.moves) : ∃ later, step.left? v = some later := by
  cases step with
  | consume | advance | skip | trim => exact ⟨_, rfl⟩
  | _ => cases hmoves

theorem partOf_made? (hv : v.Inside text) (hfits : step.Fits v) {made : View} (h : step.made? v = some made) :
    made.PartOf v := by
  cases step with
  | make => exact hfits.elim
  | copy =>
    cases h
    exact hv.aheadOf_self.partOf
  | slice =>
    cases h
    exact hv.partOf_slice hfits
  | consume =>
    cases h
    exact hv.partOf_consume ..
  | _ => cases h

theorem aheadOf_left? (hv : v.Inside text) (hfits : step.Fits v) {left : View} (h : step.left? v = some left) :
    left.AheadOf v := by
  cases step with
  | consume =>
    cases h
    exact hv.aheadOf_consume ..
  | advance =>
    cases h
    exact hv.aheadOf_advance
  | skip =>
    cases h
    exact hv.aheadOf_skip hfits
  | trim =>
    cases h
    exact hv.aheadOf_trim
  | drop => cases h
  | _ =>
    cases h
    exact hv.aheadOf_self

end Step

end View

namespace Views

open View (Step Answer)

variable {text : Bytes} {views after : Views} {i : Nat} {v : View} {step : Step} {answer : Answer}

theorem exists_step (hview : views[i]? = some v) (step : Step) :
    ∃ answer after, views.step i step = some (answer, after) := by
  rw [Views.step, hview]
  exact ⟨_, _, rfl⟩

/-- What stands under each number after a step. -/
theorem getElem?_step (hview : views[i]? = some v) (h : views.step i step = some (answer, after)) (j : Nat) :
    after[j]? = if step.target? = some j then step.made? v else if j = i then step.left? v else views[j]? := by
  have hkept : (if j = i then some v else views[j]?) = views[j]? := by
    split
    · rename_i hj
      rw [hj, hview]
    · rfl
  rw [Views.step, hview, Option.map_some, Option.some_inj] at h
  cases step <;> cases h <;>
    simp [Step.target?, Step.made?, Step.left?, View.consume, Std.ExtTreeMap.getElem?_insert,
      Std.ExtTreeMap.getElem?_erase, hkept, @eq_comm _ i j]

theorem answer_of_step (hview : views[i]? = some v) (h : views.step i step = some (answer, after)) :
    (∀ target, step.target? = some target → ∃ made, answer = .made made ∧ step.made? v = some made) ∧
      (∀ n, step = .byteAt n → answer = .byte (v.byteAt? n)) ∧
      ∀ s place, step = .matchesAt s place → answer = .matched (v.matchesAt s place) := by
  rw [Views.step, hview, Option.map_some, Option.some_inj] at h
  cases step <;> cases h <;> simp [Step.target?, Step.made?, View.consume]

/-- What a step on the view under a number does to the views, and what it tells. -/
structure Acts (views : Views) (i : Nat) (v : View) (step : Step) (answer : Answer) (after : Views) : Prop where
  /-- No other view is changed. A view that is made takes the place of the one under its number. -/
  others (j : Nat) (hj : j ≠ i) (htarget : step.target? ≠ some j) : after[j]? = views[j]?
  kept (htarget : step.target? ≠ some i) (hmoves : step.moves = false) (hdrop : step ≠ .drop) :
    after[i]? = some v
  moved (htarget : step.target? ≠ some i) (hmoves : step.moves) :
    ∃ later, after[i]? = some later ∧ later.AheadOf v
  dropped (hdrop : step = .drop) : after[i]? = none
  made (target : Nat) (htarget : step.target? = some target) :
    ∃ part, answer = .made part ∧ after[target]? = some part ∧ part.PartOf v
  copied (target : Nat) (hstep : step = .copy target) : after[target]? = some v
  byteAt (n : Int) (hstep : step = .byteAt n) : answer = .byte (v.byteAt? n)
  matchesAt (s : Bytes) (place : Nat) (hstep : step = .matchesAt s place) :
    answer = .matched (v.matchesAt s place)

theorem acts_step (hv : v.Inside text) (hview : views[i]? = some v) (hfits : step.Fits v)
    (h : views.step i step = some (answer, after)) : views.Acts i v step answer after := by
  have hafter := getElem?_step hview h
  obtain ⟨hmade, hbyte, hmatches⟩ := answer_of_step hview h
  refine ⟨fun j hj htarget => ?_, fun htarget hmoves hdrop => ?_, fun htarget hmoves => ?_, fun hdrop => ?_,
    fun target htarget => ?_, fun target hstep => ?_, hbyte, hmatches⟩
  · rw [hafter, if_neg htarget, if_neg hj]
  · rw [hafter, if_neg htarget, if_pos rfl, Step.left?_of_not_moves hmoves hdrop]
  · obtain ⟨later, hlater⟩ := Step.exists_left? (v := v) hmoves
    exact ⟨later, by rw [hafter, if_neg htarget, if_pos rfl, hlater], Step.aheadOf_left? hv hfits hlater⟩
  · subst hdrop
    rw [hafter, if_neg (by simp [Step.target?]), if_pos rfl, Step.left?]
  · obtain ⟨part, hanswer, hpart⟩ := hmade target htarget
    exact ⟨part, hanswer, by rw [hafter, if_pos htarget, hpart], Step.partOf_made? hv hfits hpart⟩
  · subst hstep
    rw [hafter, if_pos (by rfl), Step.made?]

/-! ## Runs -/

/-- The family of one view, of a whole text. -/
def single (text : Bytes) : Views := .insert ∅ 0 (.ofBytes text)

/-- The steps, each on the view with a number, lead from some views to others. -/
inductive Run : Views → List (Nat × Step) → Views → Prop
  | nil (views : Views) : Run views [] views
  | cons {views next last : Views} {i : Nat} {v : View} {step : Step} {answer : Answer}
      {rest : List (Nat × Step)} (hview : views[i]? = some v) (hfits : step.Fits v)
      (hstep : views.step i step = some (answer, next)) (hrest : Run next rest last) :
    Run views ((i, step) :: rest) last

/-- All the views are ranges of one text. -/
def AllInside (text : Bytes) (views : Views) : Prop :=
  ∀ (i : Nat) (v : View), views[i]? = some v → v.Inside text

theorem allInside_single (text : Bytes) : AllInside text (single text) := by
  intro i v hv
  rw [single, Std.ExtTreeMap.getElem?_insert] at hv
  split at hv
  · cases hv
    exact View.inside_ofBytes text
  · simp at hv

theorem allInside_step (hviews : AllInside text views) (hview : views[i]? = some v) (hfits : step.Fits v)
    (h : views.step i step = some (answer, after)) : AllInside text after := by
  have hv := hviews i v hview
  intro j w hw
  rw [getElem?_step hview h] at hw
  split at hw
  · exact (Step.partOf_made? hv hfits hw).inside hv
  · split at hw
    · exact (Step.aheadOf_left? hv hfits hw).partOf.inside hv
    · exact hviews j w hw

theorem allInside_run {steps : List (Nat × Step)} (hviews : AllInside text views)
    (h : Run views steps after) : AllInside text after := by
  induction h with
  | nil => exact hviews
  | cons hview hfits hstep _ ih => exact ih (allInside_step hviews hview hfits hstep)

/-- Whatever is done to a view of a text and to the views that are made of it, all of them stay ranges of the
text and read nothing else. Every step on one of them goes through; it leaves the other views as they are, it
moves the view forward if at all, and what it makes is a part of the view. -/
theorem run_inside {steps : List (Nat × Step)} (hrun : Run (single text) steps views)
    (hview : views[i]? = some v) :
    v.Inside text ∧ v.toBytes = Span.slice ⟨v.start, v.stop⟩ text ∧ v.ReadsWithin text ∧
      ∀ step : Step, step.Fits v →
        ∃ answer after, views.step i step = some (answer, after) ∧ views.Acts i v step answer after := by
  have hv := allInside_run (allInside_single text) hrun i v hview
  refine ⟨hv, hv.toBytes_eq, hv.readsWithin, fun step hfits => ?_⟩
  obtain ⟨answer, after, hstep⟩ := exists_step hview step
  exact ⟨answer, after, hstep, acts_step hv hview hfits hstep⟩

/-- The word in front of a comma, what is left behind the blank, and a copy that is moved past its end. -/
theorem run_inside_of_comma :
    ∃ views, Run (single (Bytes.ofString "a, b"))
        [(0, .consume Ascii.comma false true 1), (0, .skip 1), (0, .trim), (1, .copy 2), (2, .skip 9)] views ∧
      views[0]? = some ⟨Bytes.ofString "a, b", 3, 4⟩ ∧
      (View.mk (Bytes.ofString "a, b") 3 4).ReadsWithin (Bytes.ofString "a, b") ∧
      ∃ answer after, views.step 0 (.slice 0 5 1) = some (answer, after) ∧
        views.Acts 0 ⟨Bytes.ofString "a, b", 3, 4⟩ (.slice 0 5 1) answer after := by
  have hrun : Run (single (Bytes.ofString "a, b"))
      [(0, .consume Ascii.comma false true 1), (0, .skip 1), (0, .trim), (1, .copy 2), (2, .skip 9)] _ :=
    .cons rfl trivial rfl (.cons rfl (show 1 + 1 < UInt64.size by decide) rfl (.cons rfl trivial rfl
      (.cons rfl trivial rfl (.cons rfl (show 0 + 9 < UInt64.size by decide) rfl (.nil _)))))
  obtain ⟨-, -, hreads, hsteps⟩ := run_inside hrun (i := 0) (v := ⟨Bytes.ofString "a, b", 3, 4⟩) rfl
  exact ⟨_, hrun, rfl, hreads, hsteps (.slice 0 5 1) (show 3 + 0 + 5 < UInt64.size by decide)⟩

end Views

end Stencil
