import Mathlib.Data.Finset.Card
import Stencil.Proofs.Views
import Stencil.SharedBuffer

/-!
# Buffers are kept as long as a view needs them

In a sound heap (`Heap.Sound`) the count of every buffer is the number of its views, and no buffer is there
without a view. `Heap.retain` and `Heap.release` move one count by one (`Heap.Counts`) and keep the contents
(`Heap.Recounts`), so an assignment, a view that goes and a new buffer lead from a sound heap to a sound heap
with the views that are expected (`Heap.Sound.relink`). A step of `Heap.step` is made of these, and so the views
of a heap (`Heap.Shows`) go the way of `Views.step`, which knows no counts. The main statement is
`Heap.run_shows`.
-/

namespace Stencil

/-! ## The views of a buffer -/

namespace Handles

variable {handles : Handles} {o : Option Nat} {h old : Handle} {a : Nat}

/-- Where the views of the buffer at an address are. -/
def holders (handles : Handles) (a : Nat) : Finset (Option Nat) :=
  handles.keys.toFinset.filter fun o => handles[o]?.map Handle.address = some a

theorem mem_holders : o ∈ handles.holders a ↔ ∃ h, handles[o]? = some h ∧ h.address = a := by
  rw [holders, Finset.mem_filter, List.mem_toFinset, Std.ExtTreeMap.mem_keys, Option.map_eq_some_iff]
  refine and_iff_right_of_imp ?_
  rintro ⟨h, hhandle, -⟩
  exact Std.ExtTreeMap.mem_iff_isSome_getElem?.mpr (hhandle ▸ rfl)

theorem mem_holders_iff (hhandle : handles[o]? = some h) : o ∈ handles.holders a ↔ h.address = a := by
  simp [mem_holders, hhandle]

theorem notMem_holders (hnone : handles[o]? = none) : o ∉ handles.holders a := by simp [mem_holders, hnone]

theorem getElem?_insert (p : Option Nat) : (handles.insert o h)[p]? = if p = o then some h else handles[p]? := by
  simp [Std.ExtTreeMap.getElem?_insert, @eq_comm _ o p]

theorem getElem?_erase (p : Option Nat) : (handles.erase o)[p]? = if p = o then none else handles[p]? := by
  simp [Std.ExtTreeMap.getElem?_erase, @eq_comm _ o p]

theorem holders_insert :
    holders (handles.insert o h) a =
      if h.address = a then insert o (handles.holders a) else (handles.holders a).erase o := by
  ext p
  by_cases hp : p = o <;> by_cases ha : h.address = a <;> simp [mem_holders, getElem?_insert, hp, ha]

theorem holders_erase : holders (handles.erase o) a = (handles.holders a).erase o := by
  ext p
  by_cases hp : p = o <;> simp [mem_holders, getElem?_erase, hp]

theorem modify_eq_insert (hold : handles[o]? = some old) (f : Handle → Handle) :
    handles.modify o f = handles.insert o (f old) := by
  refine Std.ExtTreeMap.ext_getElem? fun p => ?_
  rw [Std.ExtTreeMap.getElem?_modify, Std.ExtTreeMap.getElem?_insert, hold, Option.map_some]

/-- A view takes the place of another: there is one more of its buffer, and one less of the other's. -/
theorem card_holders_insert (hold : handles[o]? = some old) :
    (holders (handles.insert o h) a).card + (if old.address = a then 1 else 0) =
      (handles.holders a).card + if h.address = a then 1 else 0 := by
  have hmem := mem_holders_iff (a := a) hold
  rw [holders_insert]
  split <;> split
  · rw [Finset.insert_eq_self.mpr (hmem.mpr ‹_›)]
  · rw [Finset.card_insert_of_notMem (mt hmem.mp ‹_›)]
  · exact Finset.card_erase_add_one (hmem.mpr ‹_›)
  · rw [Finset.erase_eq_of_notMem (mt hmem.mp ‹_›)]

theorem card_holders_insert_of_none (hnone : handles[o]? = none) :
    (holders (handles.insert o h) a).card = (handles.holders a).card + if h.address = a then 1 else 0 := by
  rw [holders_insert]
  split
  · rw [Finset.card_insert_of_notMem (notMem_holders hnone)]
  · rw [Finset.erase_eq_of_notMem (notMem_holders hnone)]
    rfl

theorem card_holders_erase (hold : handles[o]? = some old) :
    (holders (handles.erase o) a).card + (if old.address = a then 1 else 0) = (handles.holders a).card := by
  have hmem := mem_holders_iff (a := a) hold
  rw [holders_erase]
  split
  · exact Finset.card_erase_add_one (hmem.mpr ‹_›)
  · rw [Finset.erase_eq_of_notMem (mt hmem.mp ‹_›)]
    rfl

end Handles

namespace Heap

open View (Step Answer)

variable {heap after : Heap} {n n' : Nat → Nat} {a : Nat} {b : SharedBuffer} {o target source : Option Nat}
  {h : Handle} {v w : View}

/-! ## Counting -/

/-- The buffers are counted by this function: a buffer with count zero is not there. -/
def Counts (heap : Heap) (n : Nat → Nat) : Prop :=
  ∀ a, heap.buffers[a]?.map SharedBuffer.count = if n a = 0 then none else some (n a)

/-- The buffers of the second heap are buffers of the first, which may be counted in another way. -/
structure Recounts (heap after : Heap) : Prop where
  handles : after.handles = heap.handles
  fresh : after.fresh = heap.fresh
  buffers (a : Nat) (b : SharedBuffer) (hb : after.buffers[a]? = some b) :
    ∃ old, heap.buffers[a]? = some old ∧ old.content = b.content

theorem Recounts.refl (heap : Heap) : heap.Recounts heap := ⟨rfl, rfl, fun _ b hb => ⟨b, hb, rfl⟩⟩

theorem Recounts.trans {middle : Heap} (h : heap.Recounts middle) (h' : middle.Recounts after) :
    heap.Recounts after where
  handles := h'.handles.trans h.handles
  fresh := h'.fresh.trans h.fresh
  buffers a b hb := by
    obtain ⟨b', hb', hcontent'⟩ := h'.buffers a b hb
    obtain ⟨old, hold, hcontent⟩ := h.buffers a b' hb'
    exact ⟨old, hold, hcontent.trans hcontent'⟩

theorem Counts.exists_buffer (hcounts : heap.Counts n) (hpos : n a ≠ 0) :
    ∃ b, heap.buffers[a]? = some b ∧ b.count = n a := by
  have hcount := hcounts a
  rw [if_neg hpos] at hcount
  exact Option.map_eq_some_iff.mp hcount

theorem Counts.count_eq (hcounts : heap.Counts n) (hb : heap.buffers[a]? = some b) : b.count = n a := by
  have hcount := hcounts a
  rw [hb, Option.map_some] at hcount
  split at hcount
  · cases hcount
  · exact Option.some_inj.mp hcount

theorem Counts.ne_zero (hcounts : heap.Counts n) (hb : heap.buffers[a]? = some b) : n a ≠ 0 := by
  intro hzero
  have hcount := hcounts a
  rw [hb, if_pos hzero] at hcount
  cases hcount

/-- One buffer gets another count, or goes if that is zero. -/
theorem Counts.recount (hcounts : heap.Counts n) (hb : heap.buffers[a]? = some b)
    (hhandles : after.handles = heap.handles) (hfresh : after.fresh = heap.fresh)
    (hafter : ∀ k, after.buffers[k]? =
      if k = a then if n' a = 0 then none else some ⟨b.content, n' a⟩ else heap.buffers[k]?)
    (hn : ∀ k, k ≠ a → n' k = n k) : heap.Recounts after ∧ after.Counts n' := by
  refine ⟨⟨hhandles, hfresh, fun k c hc => ?_⟩, fun k => ?_⟩
  · rw [hafter] at hc
    by_cases hk : k = a
    · subst hk
      rw [if_pos rfl, Option.ite_none_left_eq_some, Option.some_inj] at hc
      exact ⟨b, hb, hc.2 ▸ rfl⟩
    · exact ⟨c, by rwa [if_neg hk] at hc, rfl⟩
  · by_cases hk : k = a
    · subst hk
      rw [hafter, if_pos rfl]
      split <;> rfl
    · rw [hafter, if_neg hk, hn k hk, hcounts k]

theorem Counts.retain (hcounts : heap.Counts n) (hpos : n a ≠ 0) :
    ∃ after, heap.retain a = some after ∧ heap.Recounts after ∧
      after.Counts fun k => n k + if a = k then 1 else 0 := by
  obtain ⟨b, hb, hcount⟩ := hcounts.exists_buffer hpos
  refine ⟨_, Option.map_eq_some_iff.mpr ⟨b, hb, rfl⟩, hcounts.recount hb rfl rfl (fun k => ?_) fun k hk => ?_⟩
  · simp [Std.ExtTreeMap.getElem?_insert, hcount, @eq_comm _ a k]
  · simp [Ne.symm hk]

theorem Counts.release (hcounts : heap.Counts n) (hpos : n a ≠ 0) :
    ∃ after, heap.release a = some after ∧ heap.Recounts after ∧
      after.Counts fun k => n k - if a = k then 1 else 0 := by
  obtain ⟨b, hb, hcount⟩ := hcounts.exists_buffer hpos
  refine ⟨_, Option.map_eq_some_iff.mpr ⟨b, hb, rfl⟩, hcounts.recount hb rfl rfl (fun k => ?_) fun k hk => ?_⟩
  · have hlast : b.count - 1 = 0 ↔ b.count = 1 := by omega
    simp only [if_pos, ← hcount, hlast]
    split <;> simp [Std.ExtTreeMap.getElem?_insert, Std.ExtTreeMap.getElem?_erase, @eq_comm _ a k]
  · simp [Ne.symm hk]

/-! ## Sound heaps -/

/-- The count of a buffer is the number of its views, the temporary among them, and an address that has not been
given yet is free. -/
structure Sound (heap : Heap) : Prop where
  counts : heap.Counts fun a => (heap.handles.holders a).card
  fresh (a : Nat) (ha : heap.fresh ≤ a) : heap.buffers[a]? = none

/-- The view under a number, or the temporary. -/
def viewAt (heap : Heap) (o : Option Nat) : Option View := heap.handles[o]?.bind heap.view?

/-- There is a heap, it is sound, and these are its views. -/
def Lands (after? : Option Heap) (views : Option Nat → Option View) : Prop :=
  ∃ after, after? = some after ∧ after.Sound ∧ after.viewAt = views

theorem card_holders_ne_zero (hhandle : heap.handles[o]? = some h) :
    (heap.handles.holders h.address).card ≠ 0 :=
  Finset.card_ne_zero_of_mem ((Handles.mem_holders_iff hhandle).mpr rfl)

theorem exists_handle (hview : heap.viewAt o = some v) :
    ∃ h, heap.handles[o]? = some h ∧ heap.view? h = some v :=
  Option.bind_eq_some_iff.mp hview

namespace Sound

variable (hsound : heap.Sound)
include hsound

theorem exists_buffer (hhandle : heap.handles[o]? = some h) :
    ∃ b, heap.buffers[h.address]? = some b ∧ b.count = (heap.handles.holders h.address).card :=
  hsound.counts.exists_buffer (card_holders_ne_zero hhandle)

theorem exists_view (hhandle : heap.handles[o]? = some h) :
    ∃ v, heap.viewAt o = some v ∧ heap.view? h = some v := by
  obtain ⟨b, hb, -⟩ := hsound.exists_buffer hhandle
  have hview : heap.view? h = some ⟨b.content, h.start, h.stop⟩ := Option.map_eq_some_iff.mpr ⟨b, hb, rfl⟩
  exact ⟨_, by rw [viewAt, hhandle, Option.bind_some, hview], hview⟩

/-- Other views of the same buffers, when the buffers are counted for them. -/
theorem relink {middle : Heap} (handles : Handles) (hrecounts : heap.Recounts middle)
    (hcounts : middle.Counts n) (hn : ∀ a, n a = (handles.holders a).card) :
    ({ middle with handles } : Heap).Sound ∧
      ({ middle with handles } : Heap).viewAt = fun o => handles[o]?.bind heap.view? := by
  have hafter : ({ middle with handles } : Heap).Sound :=
    { counts := fun a => by rw [hcounts a, hn a]
      fresh := fun a ha => by
        rw [hrecounts.fresh] at ha
        refine Option.eq_none_iff_forall_ne_some.mpr fun b hb => ?_
        obtain ⟨old, hold, -⟩ := hrecounts.buffers a b hb
        rw [hsound.fresh a ha] at hold
        cases hold }
  refine ⟨hafter, funext fun o => ?_⟩
  rw [viewAt]
  refine Option.bind_congr fun h hhandle => ?_
  obtain ⟨b, hb, -⟩ := hafter.exists_buffer hhandle
  obtain ⟨old, hold, hcontent⟩ := hrecounts.buffers _ b hb
  rw [view?, view?, hb, hold, Option.map_some, Option.map_some, hcontent]

/-! ## What a step is made of -/

theorem assign (target : Option Nat) (hview : heap.viewAt source = some v) :
    Lands (heap.assign target source) (Function.update heap.viewAt target (some v)) := by
  obtain ⟨h, hhandle, hv⟩ := exists_handle hview
  obtain rfl | hne := eq_or_ne target source
  · exact ⟨heap, if_pos rfl, hsound, (Function.update_eq_self_iff.mpr hview.symm).symm⟩
  have hviews : (fun o => (heap.handles.insert target h)[o]?.bind heap.view?) =
      Function.update heap.viewAt target (some v) := funext fun o => by
    by_cases ho : o = target <;> simp [Handles.getElem?_insert, ho, hv, viewAt]
  obtain ⟨retained, hretain, hrecounts, hcounts⟩ := hsound.counts.retain (card_holders_ne_zero hhandle)
  cases htarget : heap.handles[target]? with
  | none =>
    obtain ⟨hafter, hviewAt⟩ := hsound.relink (heap.handles.insert target h) hrecounts hcounts fun a =>
      (Handles.card_holders_insert_of_none htarget).symm
    exact ⟨_, by simp [Heap.assign, hne, hhandle, hretain, htarget], hafter, hviewAt.trans hviews⟩
  | some old =>
    have hold := card_holders_ne_zero htarget
    obtain ⟨released, hrelease, hrecounts', hcounts'⟩ := hcounts.release (a := old.address) (by omega)
    obtain ⟨hafter, hviewAt⟩ := hsound.relink (heap.handles.insert target h)
        (hrecounts.trans hrecounts') hcounts' fun a => by
      have hcard := Handles.card_holders_insert (h := h) (a := a) htarget
      omega
    exact ⟨_, by simp [Heap.assign, hne, hhandle, hretain, htarget, hrelease], hafter, hviewAt.trans hviews⟩

theorem drop (hview : heap.viewAt o = some v) :
    Lands (heap.drop o) (Function.update heap.viewAt o none) := by
  obtain ⟨h, hhandle, -⟩ := exists_handle hview
  obtain ⟨released, hrelease, hrecounts, hcounts⟩ := hsound.counts.release (card_holders_ne_zero hhandle)
  obtain ⟨hafter, hviewAt⟩ := hsound.relink (heap.handles.erase o) hrecounts hcounts fun a => by
    have hcard := Handles.card_holders_erase (a := a) hhandle
    omega
  refine ⟨_, by simp [Heap.drop, hhandle, hrelease], hafter, hviewAt.trans (funext fun p => ?_)⟩
  by_cases hp : p = o <;> simp [Handles.getElem?_erase, hp, viewAt]

theorem narrow (hview : heap.viewAt o = some v) (hbuffer : w.buffer = v.buffer) :
    (heap.narrow o w).Sound ∧ (heap.narrow o w).viewAt = Function.update heap.viewAt o (some w) := by
  obtain ⟨h, hhandle, hv⟩ := exists_handle hview
  obtain ⟨hafter, hviewAt⟩ := hsound.relink
    (heap.handles.insert o { h with start := w.start, stop := w.stop }) (.refl heap) hsound.counts fun a => by
      have hcard := Handles.card_holders_insert (a := a) hhandle
        (h := { h with start := w.start, stop := w.stop })
      exact (Nat.add_right_cancel hcard).symm
  have hnarrow : heap.narrow o w =
      { heap with handles := heap.handles.insert o { h with start := w.start, stop := w.stop } } := by
    rw [Heap.narrow, Handles.modify_eq_insert hhandle]
  rw [hnarrow]
  refine ⟨hafter, hviewAt.trans (funext fun p => ?_)⟩
  obtain ⟨b, hb, rfl⟩ := Option.map_eq_some_iff.mp hv
  cases w
  cases hbuffer
  by_cases hp : p = o <;> simp [Handles.getElem?_insert, hp, viewAt, view?, hb]

theorem allocate (text : Bytes) (hnone : heap.handles[(none : Option Nat)]? = none) :
    (heap.allocate text).Sound ∧
      (heap.allocate text).viewAt = Function.update heap.viewAt none (some (.ofBytes text)) := by
  have hfresh := hsound.fresh heap.fresh (Nat.le_refl _)
  have hunused : (heap.handles.holders heap.fresh).card = 0 := by
    by_contra hne
    obtain ⟨b, hb, -⟩ := hsound.counts.exists_buffer hne
    rw [hfresh] at hb
    cases hb
  refine ⟨⟨fun a => ?_, fun a ha => ?_⟩, funext fun p => ?_⟩
  · have hcard := Handles.card_holders_insert_of_none (h := ⟨heap.fresh, 0, text.length⟩) (a := a) hnone
    by_cases ha : a = heap.fresh
    · subst ha
      simp [Heap.allocate, hcard, hunused]
    · have hne : ¬heap.fresh = a := fun h => ha h.symm
      simp [Heap.allocate, Std.ExtTreeMap.getElem?_insert, hcard, hne, hsound.counts a]
  · have hne : ¬heap.fresh = a := Nat.ne_of_lt ha
    simpa [Heap.allocate, Std.ExtTreeMap.getElem?_insert, hne] using hsound.fresh a (Nat.le_of_succ_le ha)
  · by_cases hp : p = none
    · simp [viewAt, Heap.allocate, view?, hp, View.ofBytes]
    · rw [Function.update_of_ne hp, viewAt, viewAt, Heap.allocate, Handles.getElem?_insert, if_neg hp]
      refine Option.bind_congr fun h hhandle => ?_
      obtain ⟨b, hb, -⟩ := hsound.exists_buffer hhandle
      have haddress : ¬heap.fresh = h.address := fun heq => by
        rw [← heq, hfresh] at hb
        cases hb
      simp [view?, Std.ExtTreeMap.getElem?_insert, haddress]

end Sound

/-! ## Steps -/

/-- The heap is sound, and these are its views besides the temporary. -/
structure Shows (heap : Heap) (temporary : Option View) (views : Views) : Prop where
  sound : heap.Sound
  temporary : heap.viewAt none = temporary
  views (i : Nat) : heap.viewAt (some i) = views[i]?

namespace Shows

variable {views next : Views} {temporary : Option View} {i : Nat} {step : Step} {answer : Answer}

theorem handles_none (hshows : heap.Shows none views) : heap.handles[(none : Option Nat)]? = none := by
  refine Option.eq_none_iff_forall_ne_some.mpr fun h hhandle => ?_
  obtain ⟨v, hv, -⟩ := hshows.sound.exists_view hhandle
  rw [hshows.temporary] at hv
  cases hv

theorem allocate (hshows : heap.Shows none views) (text : Bytes) :
    (heap.allocate text).Shows (some (.ofBytes text)) views := by
  obtain ⟨hsound, hviews⟩ := hshows.sound.allocate text hshows.handles_none
  exact ⟨hsound, by simp [hviews], fun j => by simp [hviews, hshows.views]⟩

theorem copy (hshows : heap.Shows temporary views) (hv : views[i]? = some v) :
    ∃ after, heap.assign none (some i) = some after ∧ after.Shows (some v) views := by
  obtain ⟨after, hassign, hsound, hviews⟩ := hshows.sound.assign none ((hshows.views i).trans hv)
  exact ⟨after, hassign, hsound, by simp [hviews], fun j => by simp [hviews, hshows.views]⟩

theorem assign (hshows : heap.Shows temporary views) (hv : views[i]? = some v) (target : Nat) :
    ∃ after, heap.assign (some target) (some i) = some after ∧ after.Shows temporary (views.insert target v) := by
  obtain ⟨after, hassign, hsound, hviews⟩ := hshows.sound.assign (some target) ((hshows.views i).trans hv)
  refine ⟨after, hassign, hsound, by simp [hviews, hshows.temporary], fun j => ?_⟩
  simp [hviews, hshows.views, Function.update_apply, Std.ExtTreeMap.getElem?_insert, @eq_comm _ j]

theorem narrow (hshows : heap.Shows temporary views) (hv : views[i]? = some v) (hbuffer : w.buffer = v.buffer) :
    (heap.narrow (some i) w).Shows temporary (views.insert i w) := by
  obtain ⟨hsound, hviews⟩ := hshows.sound.narrow ((hshows.views i).trans hv) hbuffer
  refine ⟨hsound, by simp [hviews, hshows.temporary], fun j => ?_⟩
  simp [hviews, hshows.views, Function.update_apply, Std.ExtTreeMap.getElem?_insert, @eq_comm _ j]

theorem narrow_none (hshows : heap.Shows (some v) views) (hbuffer : w.buffer = v.buffer) :
    (heap.narrow none w).Shows (some w) views := by
  obtain ⟨hsound, hviews⟩ := hshows.sound.narrow hshows.temporary hbuffer
  exact ⟨hsound, by simp [hviews], fun j => by simp [hviews, hshows.views]⟩

theorem drop (hshows : heap.Shows temporary views) (hv : views[i]? = some v) :
    ∃ after, heap.drop (some i) = some after ∧ after.Shows temporary (views.erase i) := by
  obtain ⟨after, hdrop, hsound, hviews⟩ := hshows.sound.drop ((hshows.views i).trans hv)
  refine ⟨after, hdrop, hsound, by simp [hviews, hshows.temporary], fun j => ?_⟩
  simp [hviews, hshows.views, Function.update_apply, Std.ExtTreeMap.getElem?_erase, @eq_comm _ j]

theorem handOver (hshows : heap.Shows (some v) views) (target : Nat) :
    ∃ after, heap.handOver target = some after ∧ after.Shows none (views.insert target v) := by
  obtain ⟨assigned, hassign, hassigned, hviews⟩ := hshows.sound.assign (some target) hshows.temporary
  have htemporary : assigned.viewAt none = some v := by simp [hviews, hshows.temporary]
  obtain ⟨after, hdrop, hsound, hviews'⟩ := hassigned.drop htemporary
  refine ⟨after, by rw [Heap.handOver, hassign]; exact hdrop, hsound, by simp [hviews'], fun j => ?_⟩
  simp [hviews', hviews, hshows.views, Function.update_apply, Std.ExtTreeMap.getElem?_insert, @eq_comm _ j]

/-- A step on the views goes the same way in a heap that shows them. -/
theorem exists_step (hshows : heap.Shows none views) (hstep : views.step i step = some (answer, next)) :
    ∃ after, heap.step i step = some (answer, after) ∧ after.Shows none next := by
  obtain ⟨v, hv, hresult⟩ := Option.map_eq_some_iff.mp hstep
  obtain ⟨h, hhandle, hview⟩ := exists_handle ((hshows.views i).trans hv)
  cases step with
  | make text target =>
    cases hresult
    obtain ⟨after, hafter, hnext⟩ := (hshows.allocate text).handOver target
    exact ⟨after, by simp [Heap.step, hhandle, hview, hafter], hnext⟩
  | copy target =>
    cases hresult
    obtain ⟨after, hafter, hnext⟩ := hshows.assign hv target
    exact ⟨after, by simp [Heap.step, hhandle, hview, hafter], hnext⟩
  | slice offset length target =>
    cases hresult
    obtain ⟨copied, hcopied, hshows'⟩ := hshows.copy hv
    obtain ⟨after, hafter, hnext⟩ := (hshows'.narrow_none (w := v.slice offset length) rfl).handOver target
    exact ⟨after, by simp [Heap.step, hhandle, hview, hcopied, hafter], hnext⟩
  | consume stop escaped escapes target =>
    cases hresult
    obtain ⟨copied, hcopied, hshows'⟩ := hshows.copy hv
    have hmoved := hshows'.narrow hv (w := (v.consume stop escaped escapes).2) rfl
    obtain ⟨after, hafter, hnext⟩ :=
      (hmoved.narrow_none (w := (v.consume stop escaped escapes).1) rfl).handOver target
    refine ⟨after, ?_, hnext⟩
    simp [Heap.step, hhandle, hview, hcopied, hafter]
    rfl
  | advance =>
    cases hresult
    have hbuffer : v.advance.buffer = v.buffer := by
      unfold View.advance
      split <;> rfl
    exact ⟨_, by simp [Heap.step, hhandle, hview], hshows.narrow hv hbuffer⟩
  | skip n =>
    cases hresult
    exact ⟨_, by simp [Heap.step, hhandle, hview], hshows.narrow hv rfl⟩
  | trim =>
    cases hresult
    exact ⟨_, by simp [Heap.step, hhandle, hview], hshows.narrow hv rfl⟩
  | byteAt n =>
    cases hresult
    exact ⟨heap, by simp [Heap.step, hhandle, hview], hshows⟩
  | matchesAt s place =>
    cases hresult
    exact ⟨heap, by simp [Heap.step, hhandle, hview], hshows⟩
  | drop =>
    cases hresult
    obtain ⟨after, hafter, hnext⟩ := hshows.drop hv
    exact ⟨after, by simp [Heap.step, hhandle, hview, hafter], hnext⟩

/-- There is no step on a view that there is not. -/
theorem step_eq_none (hshows : heap.Shows temporary views) (hstep : views.step i step = none) :
    heap.step i step = none := by
  have hview := (hshows.views i).trans (Option.map_eq_none_iff.mp hstep)
  rw [Heap.step]
  cases hhandle : heap.handles[some i]? with
  | none => rfl
  | some h =>
    obtain ⟨v, hv, -⟩ := hshows.sound.exists_view hhandle
    rw [hview] at hv
    cases hv

/-- Every buffer that is there has a view. -/
theorem exists_view (hshows : heap.Shows none views) (hb : heap.buffers[a]? = some b) :
    ∃ (i : Nat) (h : Handle), heap.handles[some i]? = some h ∧ h.address = a := by
  obtain ⟨o, ho⟩ := Finset.card_ne_zero.mp (hshows.sound.counts.ne_zero hb)
  obtain ⟨h, hhandle, haddress⟩ := Handles.mem_holders.mp ho
  cases o with
  | none =>
    rw [hshows.handles_none] at hhandle
    cases hhandle
  | some i => exact ⟨i, h, hhandle, haddress⟩

/-- When the last view has gone, no buffer is left. -/
theorem buffers_eq_empty (hshows : heap.Shows none ∅) : heap.buffers = ∅ := by
  refine Std.ExtTreeMap.ext_getElem? fun a => ?_
  rw [Std.ExtTreeMap.getElem?_empty]
  refine Option.eq_none_iff_forall_ne_some.mpr fun b hb => ?_
  obtain ⟨i, h, hhandle, -⟩ := hshows.exists_view hb
  obtain ⟨v, hv, -⟩ := hshows.sound.exists_view hhandle
  rw [hshows.views, Std.ExtTreeMap.getElem?_empty] at hv
  cases hv

end Shows

theorem shows_empty : empty.Shows none ∅ where
  sound := { counts := fun a => by simp [empty, Handles.holders], fresh := fun a _ => by simp [empty] }
  temporary := by simp [viewAt, empty]
  views i := by simp [viewAt, empty]

/-! ## Runs -/

variable {steps : List (Nat × Step)} {views last : Views} {answers : List Answer}

theorem Shows.exists_run (hshows : heap.Shows none views)
    (hrun : View.run Views.step views steps = some (answers, last)) :
    ∃ after, View.run step heap steps = some (answers, after) ∧ after.Shows none last := by
  induction steps generalizing heap views answers with
  | nil =>
    cases hrun
    exact ⟨heap, rfl, hshows⟩
  | cons first rest ih =>
    obtain ⟨⟨answer, next⟩, hstep, htail⟩ := Option.bind_eq_some_iff.mp hrun
    obtain ⟨⟨others, final⟩, hrest, hresult⟩ := Option.bind_eq_some_iff.mp htail
    cases hresult
    obtain ⟨middle, hmiddle, hmiddleShows⟩ := hshows.exists_step hstep
    obtain ⟨after, hafter, hlast⟩ := ih hmiddleShows hrest
    exact ⟨after, by simp [View.run, hmiddle, hafter], hlast⟩

theorem Shows.run_eq_none (hshows : heap.Shows none views) (hrun : View.run Views.step views steps = none) :
    View.run step heap steps = none := by
  induction steps generalizing heap views with
  | nil => cases hrun
  | cons first rest ih =>
    cases hstep : views.step first.1 first.2 with
    | none => simp [View.run, hshows.step_eq_none hstep]
    | some result =>
      obtain ⟨middle, hmiddle, hmiddleShows⟩ := hshows.exists_step hstep
      have hrest : View.run Views.step result.2 rest = none := by
        by_contra hne
        obtain ⟨last, hlast⟩ := Option.ne_none_iff_exists'.mp hne
        simp [View.run, hstep, hlast] at hrun
      simp [View.run, hmiddle, ih hmiddleShows hrest]

/-- Whatever is done to a view of a text and to the views that are made of it: counting the views of a buffer
changes nothing of what is told and seen. No step needs a buffer that has been freed, since all steps go through
that go through on views by themselves. A buffer that is there has as many views as it counts, and one at least,
so with the last view the last buffer goes. -/
theorem run_shows (text : Bytes) (steps : List (Nat × Step)) :
    (View.run Views.step (Views.single text) steps = none → run text steps = none) ∧
      ∀ answers views, View.run Views.step (Views.single text) steps = some (answers, views) →
        ∃ heap, run text steps = some (answers, heap) ∧
          (∀ i : Nat, heap.handles[some i]?.bind heap.view? = views[i]?) ∧
          (∀ (a : Nat) (b : SharedBuffer), heap.buffers[a]? = some b →
            b.count = (heap.handles.holders a).card ∧
              ∃ (i : Nat) (h : Handle), heap.handles[some i]? = some h ∧ h.address = a) ∧
          (views = ∅ → heap.buffers = ∅) := by
  obtain ⟨first, hfirst, hshows⟩ := (shows_empty.allocate text).handOver 0
  have hrun : run text steps = View.run step first steps := by rw [run, hfirst]; rfl
  rw [hrun]
  refine ⟨hshows.run_eq_none, fun answers views hviews => ?_⟩
  obtain ⟨heap, hheap, hlast⟩ := hshows.exists_run hviews
  refine ⟨heap, hheap, hlast.views, fun a b hb => ⟨hlast.sound.counts.count_eq hb, hlast.exists_view hb⟩, ?_⟩
  rintro rfl
  exact hlast.buffers_eq_empty

/-- The buffer of a view that goes is kept for its copy, and goes with it. -/
example :
    (run (Bytes.ofString "ab") [(0, .copy 1), (0, .drop)]).map (fun r => r.2.buffers[0]?) =
        some (some ⟨Bytes.ofString "ab", 1⟩) ∧
      (run (Bytes.ofString "ab") [(0, .copy 1), (0, .drop), (1, .drop)]).map (fun r => r.2.buffers[0]?) =
        some none := by
  decide

end Heap

end Stencil
