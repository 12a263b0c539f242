import Mathlib.Data.List.Basic
import Mathlib.Data.List.Pairwise
import Stencil.Proofs.Outcome
import Stencil.Proofs.Ranges
import Stencil.Render

/-!
# Filling slots in and rebuilding a text

Rendering rewrites a text slot by slot, from the last slot to the first. `rebuild` is the text put
together afresh instead, from its front to its end, out of what is outside the slots and what takes
their places. The two agree on every document whose slots lie in its text and do not touch one
another (`Document.SlotsApart`), in whatever order its sections are listed: the part of the text in
front of the last slot that was filled in is still that of the document (`foldlM_fillSlot`). The main
statement is `renderDocument_eq_rebuild`.
-/

namespace Stencil

/-! ## The order of the slots -/

/-- The slots of a document from the front of its text to the end. -/
def Document.slotsInOrder (d : Document) : List (Span × Slot) :=
  d.slots.mergeSort fun a b => a.1.start ≤ b.1.start

/-- Two ranges that do not overlap. -/
def Span.Apart (a b : Span) : Prop := a.stop ≤ b.start ∨ b.stop ≤ a.start

instance (a b : Span) : Decidable (a.Apart b) := inferInstanceAs (Decidable (_ ∨ _))

instance : Std.Symm fun a b : Span × Slot => a.1.Apart b.1 := ⟨fun _ _ => Or.symm⟩

/-- No slot is empty, none reaches out of the text, and no two overlap. -/
structure Document.SlotsApart (d : Document) : Prop where
  nonempty : ∀ a ∈ d.slots, a.1.start < a.1.stop
  inside : ∀ a ∈ d.slots, a.1.stop ≤ d.text.length
  disjoint : d.slots.Pairwise fun a b => a.1.Apart b.1

theorem pairwise_mergeSort {α : Type} {r : α → α → Prop} [DecidableRel r]
    (htrans : ∀ a b c, r a b → r b c → r a c) (htotal : ∀ a b, r a b ∨ r b a) (l : List α) :
    (l.mergeSort fun a b => r a b).Pairwise r := by
  refine (List.pairwise_mergeSort (fun a b c => ?_) (fun a b => ?_) l).imp of_decide_eq_true
  · simp only [decide_eq_true_eq]
    exact htrans a b c
  · simp only [Bool.or_eq_true, decide_eq_true_eq]
    exact htotal a b

namespace Document

theorem mem_slotsFromEnd {d : Document} {a : Span × Slot} : a ∈ d.slotsFromEnd ↔ a ∈ d.slots :=
  List.mem_mergeSort

theorem pairwise_slotsFromEnd (d : Document) :
    d.slotsFromEnd.Pairwise fun a b => b.1.start ≤ a.1.start :=
  pairwise_mergeSort (r := fun a b => b.1.start ≤ a.1.start)
    (fun _ _ _ hab hbc => Nat.le_trans hbc hab) (fun _ _ => Nat.le_total ..) d.slots

theorem pairwise_slotsInOrder (d : Document) :
    d.slotsInOrder.Pairwise fun a b => a.1.start ≤ b.1.start :=
  pairwise_mergeSort (r := fun a b => a.1.start ≤ b.1.start)
    (fun _ _ _ => Nat.le_trans) (fun _ _ => Nat.le_total ..) d.slots

/-- Where no two slots start in one place there is one order from the end, that from the front turned
around. -/
theorem slotsFromEnd_eq_reverse {d : Document}
    (h : ∀ a ∈ d.slots, ∀ b ∈ d.slots, a.1.start = b.1.start → a = b) :
    d.slotsFromEnd = d.slotsInOrder.reverse := by
  refine List.Perm.eq_of_pairwise (fun a b ha hb hab hba => ?_) d.pairwise_slotsFromEnd
    (List.pairwise_reverse.mpr d.pairwise_slotsInOrder) ?_
  · rw [List.mem_reverse] at hb
    exact h a (List.mem_mergeSort.mp ha) b (List.mem_mergeSort.mp hb) (Nat.le_antisymm hba hab)
  · exact (List.mergeSort_perm ..).trans
      ((List.mergeSort_perm ..).symm.trans (List.reverse_perm _).symm)

/-- Sorting does not evaluate, but where no two slots start in one place this is the order of a row of them. -/
theorem slotsFromEnd_eq {d : Document} {slots : List (Span × Slot)} (hperm : slots.Perm d.slots)
    (horder : slots.Pairwise fun a b => b.1.start < a.1.start) : d.slotsFromEnd = slots := by
  have : Std.Symm fun a b : Span × Slot => a.1.start ≠ b.1.start := ⟨fun _ _ => Ne.symm⟩
  have happart : slots.Pairwise fun a b => a.1.start ≠ b.1.start := horder.imp Nat.ne_of_gt
  refine List.Perm.eq_of_pairwise (fun a b ha hb hab hba => ?_) d.pairwise_slotsFromEnd
    (horder.imp Nat.le_of_lt) ((List.mergeSort_perm ..).trans hperm.symm)
  have ha' : a ∈ slots := hperm.mem_iff.mpr (mem_slotsFromEnd.mp ha)
  by_contra hne
  exact happart.forall ha' hb hne (Nat.le_antisymm hba hab)

namespace SlotsApart

variable {d : Document}

theorem eq_of_start_eq (h : d.SlotsApart) {a b : Span × Slot} (ha : a ∈ d.slots) (hb : b ∈ d.slots)
    (hab : a.1.start = b.1.start) : a = b := by
  by_contra hne
  have ha' := h.nonempty a ha
  have hb' := h.nonempty b hb
  rcases h.disjoint.forall ha hb hne with hle | hle <;> omega

/-- Each slot ends before the ones that start behind it. -/
theorem pairwise (h : d.SlotsApart) : d.slotsFromEnd.Pairwise fun a b => b.1.stop ≤ a.1.start := by
  have hdisjoint : d.slotsFromEnd.Pairwise fun a b => a.1.Apart b.1 :=
    h.disjoint.perm (List.mergeSort_perm ..).symm Or.symm
  refine (d.pairwise_slotsFromEnd.and hdisjoint).imp_of_mem fun {a b} ha hb ⟨hle, hab⟩ => ?_
  have ha' := h.nonempty a (mem_slotsFromEnd.mp ha)
  have hb' := h.nonempty b (mem_slotsFromEnd.mp hb)
  rcases hab with hab | hab <;> omega

end SlotsApart

end Document

/-! ## A text put together afresh -/

/-- The text from `start` up to `stop`, put together from its front to its end. Slots are given in
this order, each with the bytes that take its place, or without any if it stays as it is. -/
def rebuild (text : Bytes) : (start : Nat) → List (Span × Option Bytes) → (stop : Nat) → Bytes
  | start, [], stop => Span.slice ⟨start, stop⟩ text
  | start, (span, bytes?) :: rest, stop =>
    Span.slice ⟨start, span.start⟩ text ++ bytes?.getD (span.slice text)
      ++ rebuild text span.stop rest stop

theorem rebuild_concat (text : Bytes) (start stop : Nat) (slots : List (Span × Option Bytes))
    (span : Span) (bytes? : Option Bytes) :
    rebuild text start (slots ++ [(span, bytes?)]) stop =
      rebuild text start slots span.start ++
        (bytes?.getD (span.slice text) ++ Span.slice ⟨span.stop, stop⟩ text) := by
  induction slots generalizing start with
  | nil => simp [rebuild]
  | cons slot rest ih => simp [rebuild, ih]

namespace Session

variable {σ : Type}

/-- The bytes that take the place of a slot: its value after its operation, written out. There are
none if the name of the slot stands for nothing. -/
def substitute? (s : Session σ) (expand : Expander σ) (env : Environment) (slot : Slot) :
    Action σ (Option Bytes) := do
  match ← s.resolveSlot expand env slot with
  | none => return none
  | some value =>
    let value ← Action.ofExcept (slot.compute value)
    return some value.write

/-- Renders a document at a depth by putting its text together afresh. Its slots are resolved from
the last to the first, all of them before any of the text is written. -/
def rebuildDocument (s : Session σ) (depth : Int) (env : Environment) (d : Document) :
    Action σ Bytes := do
  let env ← s.bind env d
  s.note (.bound env.size depth)
  let filled ← d.slotsInOrder.reverse.mapM fun slot => do
    return (slot.1, ← s.substitute? (s.render (depth + 1)) env slot.2)
  return normalize (rebuild d.text 0 filled.reverse d.text.length)

/-- Filling in a slot of a text of which the first `n` bytes are untouched. -/
theorem fillSlot_take (s : Session σ) (expand : Expander σ) (env : Environment) {text : Bytes}
    {slot : Span × Slot} {n : Nat} (hle : slot.1.start ≤ slot.1.stop) (hn : slot.1.stop ≤ n)
    (hlen : n ≤ text.length) (tail : Bytes) :
    s.fillSlot expand env (text.take n ++ tail) slot = do
      let bytes? ← s.substitute? expand env slot.2
      return text.take slot.1.start ++
        (bytes?.getD (slot.1.slice text) ++ Span.slice ⟨slot.1.stop, n⟩ text ++ tail) := by
  have hsame : text.take n =
      text.take slot.1.start ++ (slot.1.slice text ++ Span.slice ⟨slot.1.stop, n⟩ text) := by
    rw [← Span.slice_zero, ← Span.slice_zero, Span.slice_append_slice hle hn,
      Span.slice_append_slice (Nat.zero_le _) (Nat.le_trans hle hn)]
  have hsplice (bytes : Bytes) : Bytes.splice? (text.take n ++ tail) bytes slot.1.start slot.1.stop =
      some (text.take slot.1.start ++ (bytes ++ Span.slice ⟨slot.1.stop, n⟩ text ++ tail)) := by
    have hfits : ¬(text.take n ++ tail).length < slot.1.stop := by
      rw [List.length_append, List.length_take]
      omega
    rw [Bytes.splice?, if_neg hfits, List.take_append_of_le_length, List.drop_append_of_le_length,
      List.take_take, Nat.min_eq_left (Nat.le_trans hle hn), Span.slice]
    · simp only [List.append_assoc]
    all_goals rw [List.length_take]; omega
  rw [fillSlot, substitute?, bind_assoc]
  congr 1
  funext value?
  cases value? with
  | none => simp [hsame]
  | some value =>
    simp only [bind_assoc, pure_bind, if_neg (Nat.not_lt.mpr hle), hsplice, Option.getD_some]

/-- Filling slots in, the last one first, in a text of which the first `n` bytes are untouched: what
is rebuilt of these bytes comes to stand in front of the rest. -/
theorem foldlM_fillSlot (s : Session σ) (expand : Expander σ) (env : Environment) {text : Bytes}
    {slots : List (Span × Slot)} (hle : ∀ a ∈ slots, a.1.start ≤ a.1.stop)
    (hslots : slots.Pairwise fun a b => b.1.stop ≤ a.1.start) {n : Nat} (hn : ∀ a ∈ slots, a.1.stop ≤ n)
    (hlen : n ≤ text.length) (tail : Bytes) :
    slots.foldlM (s.fillSlot expand env) (text.take n ++ tail) = do
      let filled ← slots.mapM fun slot => do return (slot.1, ← s.substitute? expand env slot.2)
      return rebuild text 0 filled.reverse n ++ tail := by
  induction slots generalizing n tail with
  | nil => simp [rebuild, Span.slice_zero]
  | cons slot rest ih =>
    rw [List.forall_mem_cons] at hle hn
    obtain ⟨hfirst, hrest⟩ := List.pairwise_cons.mp hslots
    have hstart : slot.1.start ≤ text.length :=
      Nat.le_trans hle.1 (Nat.le_trans hn.1 hlen)
    rw [List.foldlM_cons, fillSlot_take s expand env hle.1 hn.1 hlen tail, List.mapM_cons]
    simp only [bind_assoc, pure_bind]
    congr 1
    funext bytes?
    rw [ih hle.2 hrest hfirst hstart]
    simp only [List.reverse_cons, rebuild_concat, List.append_assoc]

theorem foldlM_slotsFromEnd (s : Session σ) (expand : Expander σ) (env : Environment) {d : Document}
    (h : d.SlotsApart) :
    d.slotsFromEnd.foldlM (s.fillSlot expand env) d.text = do
      let filled ← d.slotsInOrder.reverse.mapM fun slot => do
        return (slot.1, ← s.substitute? expand env slot.2)
      return rebuild d.text 0 filled.reverse d.text.length := by
  have horder := Document.slotsFromEnd_eq_reverse fun a ha b hb => h.eq_of_start_eq ha hb
  have hfold := s.foldlM_fillSlot expand env
    (fun a ha => Nat.le_of_lt (h.nonempty a (Document.mem_slotsFromEnd.mp ha))) h.pairwise
    (fun a ha => h.inside a (Document.mem_slotsFromEnd.mp ha)) (Nat.le_refl _) []
  simpa only [List.take_length, List.append_nil, horder] using hfold

theorem referent?_eq_none_iff (s : Session σ) (env : Environment) (slot : Slot) :
    s.referent? env slot = none ↔ slot.name ∉ env ∧ s.isFunction slot.name = false := by
  unfold referent?
  cases hv : env[slot.name]? with
  | none =>
    have hnot : slot.name ∉ env := by simp [Std.ExtTreeMap.mem_iff_isSome_getElem?, hv]
    simp [hnot]
  | some v =>
    have hmem : slot.name ∈ env := by simp [Std.ExtTreeMap.mem_iff_isSome_getElem?, hv]
    simp [hmem]

/-- Nothing takes the place of a slot only where its name stands for nothing. -/
theorem substitute?_eq_none_iff (s : Session σ) (expand : Expander σ) (env : Environment)
    (slot : Slot) (w : World σ) :
    (s.substitute? expand env slot w).result = .ok none ↔
      slot.name ∉ env ∧ s.isFunction slot.name = false := by
  rw [← referent?_eq_none_iff, substitute?, Action.result_bind_eq_ok, resolveSlot]
  cases s.referent? env slot with
  | none => exact iff_of_true ⟨none, rfl, rfl⟩ rfl
  | some v =>
    refine iff_of_false (fun ⟨value?, hvalue, hnone⟩ => ?_) (by simp)
    obtain ⟨value, -, hvalue⟩ := Action.result_bind_eq_ok.mp (Action.result_tell_bind ▸ hvalue)
    obtain rfl := Action.result_pure_eq_ok.mp hvalue
    obtain ⟨computed, -, hnone⟩ := Action.result_bind_eq_ok.mp hnone
    cases hnone

/-- Filling the slots of a document in from the last to the first comes to the same as rebuilding its
text from the front: the two end in the same way, with the same text, and do the same to the world on
the way. A slot keeps its own bytes exactly if its name is neither that of a variable nor that of a
function. -/
theorem renderDocument_eq_rebuild (s : Session σ) (depth : Int) (env : Environment) {d : Document}
    (h : d.SlotsApart) :
    s.renderDocument depth env d = s.rebuildDocument depth env d ∧
      ∀ expand env slot w, (s.substitute? expand env slot w).result = .ok none ↔
        slot.name ∉ env ∧ s.isFunction slot.name = false := by
  refine ⟨?_, substitute?_eq_none_iff s⟩
  unfold renderDocument renderDocumentWith rebuildDocument
  simp only [foldlM_slotsFromEnd s _ _ h, bind_assoc, pure_bind]

/-- Four slots, which are listed in another order than they stand in. -/
def swapped : Document where
  text := Bytes.ofString "\x7b\x7ba\x7d\x7d,\x7b\x7bb\x7d\x7d,\x7b\x7bn + 1\x7d\x7d,\x7b\x7bz\x7d\x7d"
  sections :=
    [.slot ⟨12, 21⟩ { name := Bytes.ofString "n", operation := some ⟨.add, ⟨0x3ff0000000000000⟩⟩ },
      .slot ⟨0, 5⟩ { name := Bytes.ofString "a" }, .slot ⟨22, 27⟩ { name := Bytes.ofString "z" },
      .slot ⟨6, 11⟩ { name := Bytes.ofString "b" }]

/-- Variables for three of them: a text that is longer than its slot, one that is shorter, and the number two. -/
def swappedScope : Environment :=
  let entries : List (Bytes × Variable) :=
    [(Bytes.ofString "a", { kind := .text, value := .text (Bytes.ofString "longer") }),
      (Bytes.ofString "b", { kind := .text, value := .text (Bytes.ofString "b") }),
      (Bytes.ofString "n", { kind := .number, value := .number ⟨0x4000000000000000⟩ })]
  .ofList entries

theorem renderDocument_eq_rebuild_of_swapped :
    let s : Session Unit := {}
    let w : World Unit := { disk := .empty, host := () }
    swapped.SlotsApart ∧ s.renderDocument 0 swappedScope swapped = s.rebuildDocument 0 swappedScope swapped ∧
      (s.rebuildDocument 0 swappedScope swapped w).result =
        .ok (Bytes.ofString "longer,b,3,\x7b\x7bz\x7d\x7d") := by
  intro s w
  have h : swapped.SlotsApart := ⟨by decide, by decide, by decide⟩
  have hrebuild := (s.renderDocument_eq_rebuild 0 swappedScope h).1
  refine ⟨h, hrebuild, ?_⟩
  have hslots : swapped.slotsFromEnd =
      [swapped.slots[2], swapped.slots[0], swapped.slots[3], swapped.slots[1]] :=
    Document.slotsFromEnd_eq (by decide) (by decide)
  rw [← hrebuild, renderDocument, renderDocumentWith, hslots]
  decide +kernel

end Session

end Stencil
