import Stencil.View

/-!
# Shared buffers

The views of a buffer share it, and the buffer counts them. A copy of a view adds one to the count, a view that
goes takes one away, and with the last one the buffer is freed. `Heap.step` takes a step on a view in these
terms: the view that it makes is a temporary at first, which is assigned to its number and then goes.
-/

namespace Stencil

/-- A buffer with the number of its views. -/
structure SharedBuffer where
  content : Bytes
  count : Nat
  deriving DecidableEq, Repr

/-- A view that knows where its buffer is. -/
structure Handle where
  address : Nat
  start : Nat
  stop : Nat
  deriving DecidableEq, Repr

/-- Views under numbers, and under `none` the temporary, if there is one. -/
abbrev Handles := Std.ExtTreeMap (Option Nat) Handle

/-- Buffers under addresses, and the views of them. -/
structure Heap where
  buffers : Std.ExtTreeMap Nat SharedBuffer
  handles : Handles
  /-- The next address. No buffer has had it or a larger one. -/
  fresh : Nat

namespace Heap

/-- A view of the buffer at an address is added. There is no result if the buffer has been freed. -/
def retain (heap : Heap) (address : Nat) : Option Heap :=
  heap.buffers[address]?.map fun b =>
    { heap with buffers := heap.buffers.insert address { b with count := b.count + 1 } }

/-- A view of the buffer at an address goes, and with the last one the buffer. -/
def release (heap : Heap) (address : Nat) : Option Heap :=
  heap.buffers[address]?.map fun b =>
    { heap with
      buffers :=
        if b.count = 1 then heap.buffers.erase address
        else heap.buffers.insert address { b with count := b.count - 1 } }

/-- The view that a handle is, if its buffer is still there. -/
def view? (heap : Heap) (h : Handle) : Option View :=
  heap.buffers[h.address]?.map fun b => ⟨b.content, h.start, h.stop⟩

/-- A new buffer, and a temporary view of the whole of it. -/
def allocate (heap : Heap) (text : Bytes) : Heap where
  buffers := heap.buffers.insert heap.fresh ⟨text, 1⟩
  handles := heap.handles.insert none ⟨heap.fresh, 0, text.length⟩
  fresh := heap.fresh + 1

/-- The target becomes a copy of the source. Its new buffer is retained before its old one is released: the two
may be one. A target that there was not has nothing to release. -/
def assign (heap : Heap) (target source : Option Nat) : Option Heap :=
  if target = source then some heap
  else do
    let h ← heap.handles[source]?
    let retained ← heap.retain h.address
    let released ←
      match heap.handles[target]? with
      | some old => retained.release old.address
      | none => some retained
    return { released with handles := heap.handles.insert target h }

/-- A view goes. -/
def drop (heap : Heap) (o : Option Nat) : Option Heap := do
  let h ← heap.handles[o]?
  let released ← heap.release h.address
  return { released with handles := heap.handles.erase o }

/-- A view takes the range of this one. -/
def narrow (heap : Heap) (o : Option Nat) (v : View) : Heap :=
  { heap with handles := heap.handles.modify o fun h => { h with start := v.start, stop := v.stop } }

/-- The temporary is assigned to a number and goes. -/
def handOver (heap : Heap) (target : Nat) : Option Heap := do
  let assigned ← heap.assign (some target) none
  assigned.drop none

/-- A step on the view with a number. There is no result if there is no such view, or if a buffer is needed that
has been freed. -/
def step (heap : Heap) (i : Nat) (step : View.Step) : Option (View.Answer × Heap) := do
  let h ← heap.handles[some i]?
  let v ← heap.view? h
  match step with
  | .make text target => return (.made (.ofBytes text), ← (heap.allocate text).handOver target)
  | .copy target => return (.made v, ← heap.assign (some target) (some i))
  | .slice offset length target =>
    let part := v.slice offset length
    let copied ← heap.assign none (some i)
    return (.made part, ← (copied.narrow none part).handOver target)
  | .consume stop escaped escapes target =>
    let (before, after) := v.consume stop escaped escapes
    let copied ← heap.assign none (some i)
    return (.made before, ← ((copied.narrow (some i) after).narrow none before).handOver target)
  | .advance => return (.nothing, heap.narrow (some i) v.advance)
  | .skip n => return (.nothing, heap.narrow (some i) (v.skip n))
  | .trim => return (.nothing, heap.narrow (some i) v.trim)
  | .byteAt n => return (.byte (v.byteAt? n), heap)
  | .matchesAt s place => return (.matched (v.matchesAt s place), heap)
  | .drop => return (.nothing, ← heap.drop (some i))

/-- Nothing is there. -/
def empty : Heap := ⟨∅, ∅, 0⟩

end Heap

/-- Steps, each on the view with a number, and what they tell. -/
def View.run {σ : Type} (step : σ → Nat → View.Step → Option (View.Answer × σ)) (state : σ) :
    List (Nat × View.Step) → Option (List View.Answer × σ)
  | [] => some ([], state)
  | (i, first) :: rest => do
    let (answer, next) ← step state i first
    let (answers, last) ← View.run step next rest
    return (answer :: answers, last)

/-- The steps from a view of a whole text on, which has the number 0. -/
def Heap.run (text : Bytes) (steps : List (Nat × View.Step)) : Option (List View.Answer × Heap) := do
  let heap ← (Heap.empty.allocate text).handOver 0
  View.run Heap.step heap steps

end Stencil
