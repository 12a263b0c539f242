import Mathlib.Algebra.GroupWithZero.Nat
import Mathlib.Data.List.Basic
import Stencil.Proofs.DiskPaths

/-!
# Blocks that are written in calls

A block is written in as many calls as it takes, each of which takes a part of what is left of it. What is
open has then taken these bytes, in order and once (`Channel.Accepts`), and a file has them behind what it held
before (`Channel.Accepts.eq_taking`, `Disk.node?_append`). A call that takes nothing ends this, and what is left
of the block is lost (`Channel.exists_fate`); from one block this goes to a row of blocks by induction
(`Channel.exists_fates`). Where every call takes something nothing is lost (`Channel.writeAll_of_willing`), and
where no call takes anything everything is (`Channel.writeAll_of_refuses`).
-/

namespace Stencil

/-! ## What a file takes -/

namespace Disk

theorem set_set (d : Disk) (place : Location) (n n' : Node) : (d.set place n).set place n' = d.set place n' := by
  have hnodes : (d.nodes.insert place n).insert place n' = d.nodes.insert place n' := by
    apply Std.ExtTreeMap.ext_getElem?
    grind
  simp only [set, hnodes]

theorem set_self {d : Disk} {place : Location} {n : Node} (hplace : place ≠ [])
    (hn : d.node? place = some n) : d.set place n = d := by
  have hn' : d.nodes[place]? = some n := by
    have hempty : place.isEmpty = false := by simpa using hplace
    simpa [node?, hempty] using hn
  have hnodes : d.nodes.insert place n = d.nodes := by
    apply Std.ExtTreeMap.ext_getElem?
    grind
  simp only [set, hnodes]

/-- The root is a directory. -/
theorem ne_nil_of_file {d : Disk} {place : Location} {content : Bytes}
    (h : d.node? place = some (.file content)) : place ≠ [] := by
  rintro rfl
  cases h

section

variable {d : Disk} {place : Location} {content : Bytes} (h : d.node? place = some (.file content))
include h

theorem append_file (data : Bytes) : d.append data (.file place) = d.set place (.file (content ++ data)) := by
  simp only [append, h]

theorem node?_append (data : Bytes) :
    (d.append data (.file place)).node? place = some (.file (content ++ data)) := by
  rw [append_file h, node?_set d (ne_nil_of_file h), if_pos rfl]

theorem grows_append (data : Bytes) : d.Grows (d.append data (.file place)) := by
  rw [append_file h]
  refine grows_set (ne_nil_of_file h) fun old hold => ?_
  obtain rfl : Node.file content = old := Option.some.inj (h.symm.trans hold)
  simp

end

/-- What is written to a file changes no other place. -/
theorem node?_append_of_ne (d : Disk) (data : Bytes) {place other : Location} (hother : other ≠ place) :
    (d.append data (.file place)).node? other = d.node? other := by
  cases hplace : d.node? place with
  | none => simp only [append, hplace]
  | some n =>
    cases n with
    | file content => rw [append_file hplace, node?_set d (ne_nil_of_file hplace), if_neg hother.symm]
    | directory => simp only [append, hplace]
    | device dev => simp only [append, hplace]

@[simp]
theorem append_nil (d : Disk) (sink : Sink) : d.append [] sink = d := by
  fun_cases append d [] sink with
  | case1 place content hplace => rw [List.append_nil, set_self (ne_nil_of_file hplace) hplace]
  | _ => rfl

theorem append_append (d : Disk) (data more : Bytes) (sink : Sink) :
    (d.append data sink).append more sink = d.append (data ++ more) sink := by
  fun_cases append d data sink with
  | case1 place content hplace =>
    have hnode := node?_append hplace data
    rw [append_file hplace] at hnode
    rw [append_file hnode, append_file hplace, set_set, List.append_assoc]
  | case2 place hplace => simp only [append]
  | case3 => rfl
  | case4 => rfl

end Disk

namespace Channel

variable {c after : Channel} {sink : Disk.Sink}

theorem taking_nil (c : Channel) (sink : Disk.Sink) : c.taking sink [] 0 = c := by
  simp [taking]

theorem taking_taking (c : Channel) (sink : Disk.Sink) (data more : Bytes) (n m : Nat) :
    (c.taking sink data n).taking sink more m = c.taking sink (data ++ more) (n + m) := by
  simp only [taking, Disk.append_append]
  split
  · rw [List.append_assoc, Nat.add_assoc]
  · rw [Nat.add_assoc]

/-- A call that fails takes nothing. -/
theorem taking_one (c : Channel) (sink : Disk.Sink) : c.taking sink [] 1 = { c with calls := c.calls + 1 } := by
  simp [taking]

/-! ## Calls that take what they are given -/

/-- What is open takes these bytes in order and once: each call takes the next ones, as many as there is room
for, and none fails. -/
inductive Accepts (sink : Disk.Sink) : (before : Channel) → Bytes → (after : Channel) → Prop
  | nil (c : Channel) : Accepts sink c [] c
  | call {c after : Channel} {part rest : Bytes} {given : Nat} (hpart : part ≠ [])
      (hroom : c.room sink given = part.length) (hrest : Accepts sink (c.taking sink part 1) rest after) :
      Accepts sink c (part ++ rest) after

namespace Accepts

variable {text more : Bytes}

theorem trans {after' : Channel} (h : Accepts sink c text after) (h' : Accepts sink after more after') :
    Accepts sink c (text ++ more) after' := by
  induction h with
  | nil c => exact h'
  | call hpart hroom _ ih =>
    rw [List.append_assoc]
    exact .call hpart hroom (ih h')

theorem eq_taking (h : Accepts sink c text after) : ∃ calls, after = c.taking sink text calls := by
  induction h with
  | nil c => exact ⟨0, (c.taking_nil sink).symm⟩
  | @call c after part rest given _ _ _ ih =>
    obtain ⟨calls, rfl⟩ := ih
    exact ⟨1 + calls, c.taking_taking sink part rest 1 calls⟩

/-- Where no call takes anything, there is nothing to take. -/
theorem eq_nil (h : Accepts sink c text after)
    (hrefuses : ∀ calls given, { c with calls }.room sink given = 0) : text = [] := by
  cases h with
  | nil => rfl
  | call hpart hroom _ =>
    rw [hrefuses c.calls] at hroom
    exact absurd (List.length_eq_zero_iff.mp hroom.symm) hpart

end Accepts

/-! ## Blocks -/

/-- What becomes of a block: what is open has taken this much of it, and the rest is lost. -/
structure Fate where
  taken : Bytes
  lost : Bytes

namespace Fate

def block (f : Fate) : Bytes := f.taken ++ f.lost

/-- What is told of it. -/
def events (f : Fate) : List Event := if f.lost = [] then [] else [.lost f.lost.length]

end Fate

/-- What was taken of blocks of which nothing is lost. -/
theorem flatMap_taken {fates : List Fate} (h : ∀ f ∈ fates, f.lost = []) :
    fates.flatMap Fate.taken = fates.flatMap Fate.block ∧ fates.flatMap Fate.events = [] := by
  refine ⟨List.flatMap_congr fun f hf => ?_, List.flatMap_eq_nil_iff.mpr fun f hf => if_pos (h f hf)⟩
  rw [Fate.block, h f hf, List.append_nil]

/-- Some call fails: it is given bytes, and there is room for none. -/
def Fails (c : Channel) (sink : Disk.Sink) : Prop :=
  ∃ calls given, 0 < given ∧ { c with calls }.room sink given = 0

/-- A block is taken up to the call that fails, if one does. -/
theorem exists_fate (c : Channel) (sink : Disk.Sink) (block : Bytes) :
    ∃ (fate : Fate) (stop : Channel) (calls : Nat), fate.block = block ∧ Accepts sink c fate.taken stop ∧
      c.writeTo sink block = (stop.taking sink [] calls, fate.events) ∧ (fate.lost = [] → calls = 0) ∧
      (fate.lost ≠ [] → c.Fails sink) := by
  fun_induction writeTo c sink block with
  | case1 c block hempty =>
    obtain rfl := List.isEmpty_iff.mp hempty
    exact ⟨⟨[], []⟩, c, 0, rfl, .nil c, by rw [taking_nil]; rfl, fun _ => rfl, absurd rfl⟩
  | case2 c block hempty n hroom =>
    have hne : block ≠ [] := by simpa using hempty
    refine ⟨⟨[], block⟩, c, 1, rfl, .nil c, ?_, fun h => absurd h hne, fun _ => ?_⟩
    · rw [taking_one]
      simp [Fate.events, hne]
    · exact ⟨c.calls, block.length, List.length_pos_iff.mpr hne, hroom⟩
  | case3 c block hempty n hroom ih =>
    obtain ⟨fate, stop, calls, hblock, haccepts, hwrite, hnone, hlost⟩ := ih
    have hn : n ≤ block.length := by
      unfold n room
      grind
    have hpart : (block.take n).length = n := by rw [List.length_take, Nat.min_eq_left hn]
    refine ⟨⟨block.take n ++ fate.taken, fate.lost⟩, stop, calls, ?_, ?_, hwrite, hnone, hlost⟩
    · show block.take n ++ fate.taken ++ fate.lost = block
      rw [List.append_assoc]
      exact (congrArg _ hblock).trans (List.take_append_drop n block)
    · refine .call ?_ hpart.symm haccepts
      rw [← List.length_pos_iff, hpart]
      exact Nat.pos_of_ne_zero hroom

/-- A row of blocks is taken up to the call that fails, each of them. Where none does, the row is taken as a
whole. -/
theorem exists_fates {c : Channel} {sink : Disk.Sink} (hsink : c.sink? = some sink) (blocks : List Bytes) :
    ∃ (fates : List Fate) (calls : Nat), fates.map Fate.block = blocks ∧
      c.writeAll blocks = (c.taking sink (fates.flatMap Fate.taken) calls, fates.flatMap Fate.events) ∧
      ((∀ f ∈ fates, f.lost = []) → Accepts sink c blocks.flatten (c.writeAll blocks).1) ∧
      ((∃ f ∈ fates, f.lost ≠ []) → c.Fails sink) ∧
      ((∀ calls given, { c with calls }.room sink given = 0) → ∀ f ∈ fates, f.taken = []) := by
  induction blocks generalizing c with
  | nil => exact ⟨[], 0, rfl, by rw [List.flatMap_nil, taking_nil]; rfl, fun _ => .nil c, by simp, by simp⟩
  | cons block rest ih =>
    obtain ⟨fate, stop, n, hblock, haccepts, hwriteTo, hnone, hfails⟩ := c.exists_fate sink block
    obtain ⟨m, rfl⟩ := haccepts.eq_taking
    rw [taking_taking, List.append_nil] at hwriteTo
    obtain ⟨fates, calls, hblocks, hrest, haccepts', hfails', hrefuses'⟩ :=
      ih (c := c.taking sink fate.taken (m + n)) hsink
    have hwrite : c.write block = (c.taking sink fate.taken (m + n), fate.events) := by
      simp only [write, hsink, hwriteTo]
    have hwriteAll : c.writeAll (block :: rest) =
        (((c.taking sink fate.taken (m + n)).writeAll rest).1,
          fate.events ++ ((c.taking sink fate.taken (m + n)).writeAll rest).2) := by
      rw [writeAll, hwrite]
    rw [hwriteAll]
    refine ⟨fate :: fates, m + n + calls, by rw [List.map_cons, hblock, hblocks], ?_, fun hlost => ?_,
      fun hlost => ?_, fun hrefuses f hf => ?_⟩
    · rw [hrest, taking_taking, List.flatMap_cons, List.flatMap_cons]
    · have hall : fate.lost = [] := hlost fate List.mem_cons_self
      have htaken : fate.taken = block := by rw [← hblock, Fate.block, hall, List.append_nil]
      have hn : n = 0 := hnone hall
      subst hn
      rw [htaken] at haccepts haccepts' ⊢
      exact haccepts.trans (haccepts' fun f hf => hlost f (List.mem_cons_of_mem _ hf))
    · obtain ⟨f, hf, hne⟩ := hlost
      rcases List.mem_cons.mp hf with rfl | hf
      · exact hfails hne
      · exact hfails' ⟨f, hf, hne⟩
    · rcases List.mem_cons.mp hf with rfl | hf
      · exact haccepts.eq_nil hrefuses
      · exact hrefuses' hrefuses f hf

/-- Where every call takes something, the whole row is taken and nothing is told. -/
theorem writeAll_of_willing {c : Channel} {sink : Disk.Sink} (hsink : c.sink? = some sink)
    (hwilling : ¬c.Fails sink) (blocks : List Bytes) :
    ∃ calls, c.writeAll blocks = (c.taking sink blocks.flatten calls, []) := by
  obtain ⟨fates, calls, hblocks, hwrite, -, hfails, -⟩ := exists_fates hsink blocks
  have hlost : ∀ f ∈ fates, f.lost = [] := by
    intro f hf
    by_contra hne
    exact hwilling (hfails ⟨f, hf, hne⟩)
  obtain ⟨htaken, hevents⟩ := flatMap_taken hlost
  exact ⟨calls, by rw [hwrite, htaken, hevents, ← hblocks, ← List.flatMap_def]⟩

/-- How many bytes are told to be lost are as many as are lost. -/
theorem exists_counts (fates : List Fate) : ∃ counts : List Nat,
    fates.flatMap Fate.events = counts.map .lost ∧ counts.sum = (fates.flatMap Fate.lost).length := by
  induction fates with
  | nil => exact ⟨[], rfl, rfl⟩
  | cons f rest ih =>
    obtain ⟨counts, hevents, hsum⟩ := ih
    rw [List.flatMap_cons, List.flatMap_cons, List.length_append, hevents, Fate.events, ← hsum]
    split
    · rename_i hlost
      exact ⟨counts, rfl, by rw [hlost, List.length_nil, Nat.zero_add]⟩
    · exact ⟨f.lost.length :: counts, rfl, List.sum_cons⟩

/-- Something is or was open, and no call takes anything. -/
def Refuses (c : Channel) : Prop :=
  ∃ sink, c.sink? = some sink ∧ ∀ calls given, { c with calls }.room sink given = 0

/-- Nothing of the row is taken, and that is told. -/
theorem writeAll_of_refuses {c : Channel} (h : c.Refuses) (blocks : List Bytes) :
    ∃ (calls : Nat) (counts : List Nat), c.writeAll blocks = ({ c with calls }, counts.map .lost) ∧
      counts.sum = blocks.flatten.length := by
  obtain ⟨sink, hsink, hrefuses⟩ := h
  obtain ⟨fates, calls, hblocks, hwrite, -, -, hnothing⟩ := exists_fates hsink blocks
  obtain ⟨counts, hevents, hsum⟩ := exists_counts fates
  have htaken : fates.flatMap Fate.taken = [] := List.flatMap_eq_nil_iff.mpr (hnothing hrefuses)
  have hlost : fates.flatMap Fate.lost = blocks.flatten := by
    rw [← hblocks, ← List.flatMap_def]
    exact List.flatMap_congr fun f hf => by rw [Fate.block, hnothing hrefuses f hf, List.nil_append]
  have htaking : c.taking sink [] calls = { c with calls := c.calls + calls } := by simp [taking]
  exact ⟨c.calls + calls, counts, by rw [hwrite, htaken, hevents, htaking], by rw [hsum, hlost]⟩

end Channel

end Stencil
