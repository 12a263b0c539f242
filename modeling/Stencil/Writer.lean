import Stencil.Disk

/-!
# Buffered writers

A writer gathers bytes and passes them on in blocks of `Writer.capacity`; what is left is passed on
when the writer is flushed or dropped. A full block stays where it is until more bytes come. What is open
takes a block in one or more calls, each of which may take a part of what it is given, and when a call
fails the rest of the block is lost.

Several writers can share one channel, the way to an open file: a writer can hand the channel over to
a new writer, and only the writer that has not handed it over flushes and closes it when it is
dropped.
-/

namespace Stencil

/-- How calls are answered that are to write bytes: which number of bytes is taken by the call that comes
after so many others and is given so many. A call that takes none has failed. -/
abbrev Channel.Answers := Nat → Nat → Nat

/-- The way to what is open, or to nothing. -/
structure Channel where
  disk : Disk
  /-- What is open. Without it whatever is written is gone. -/
  sink? : Option Disk.Sink
  /-- A closed channel refuses everything. -/
  closed : Bool := false
  /-- What files and the standard output answer. -/
  answers : Stencil.Channel.Answers := fun _ given => given
  /-- How many calls there were. -/
  calls : Nat := 0
  /-- What the standard output has taken. -/
  output : Bytes := []

namespace Channel

/-- How many of so many bytes the next call takes. -/
def room (c : Channel) (sink : Disk.Sink) (given : Nat) : Nat :=
  if c.closed then 0
  else
    match sink with
    | .file _ | .standardOutput => min (c.answers c.calls given) given
    | .device .null => given
    | .device .full => 0

/-- The channel after these bytes were taken, with so many calls. -/
def taking (c : Channel) (sink : Disk.Sink) (taken : Bytes) (calls : Nat) : Channel :=
  { c with
    disk := c.disk.append taken sink
    calls := c.calls + calls
    output := if sink = .standardOutput then c.output ++ taken else c.output }

/-- Writes a block to what is open, in as many calls as it takes. When a call fails, what is left is lost,
and that is an event. -/
def writeTo (c : Channel) (sink : Disk.Sink) (block : Bytes) : Channel × List Event :=
  if block.isEmpty then (c, [])
  else
    let n := c.room sink block.length
    if n = 0 then ({ c with calls := c.calls + 1 }, [.lost block.length])
    else (c.taking sink (block.take n) 1).writeTo sink (block.drop n)
termination_by block.length
decreasing_by
  simp only [List.isEmpty_iff, List.length_drop] at *
  have := List.length_pos_iff.mpr ‹_›
  omega

/-- Writes a block. -/
def write (c : Channel) (block : Bytes) : Channel × List Event :=
  match c.sink? with
  | none => (c, [])
  | some sink => c.writeTo sink block

/-- Closes what is open, the standard output apart, which stays open. -/
def close (c : Channel) : Channel :=
  if c.sink? = some .standardOutput then c else { c with closed := true }

/-- The way to a new file, with all directories that lead to it made. -/
def create (disk : Disk) (path : Bytes) : Channel × List Event :=
  let (disk, events) := disk.makeDirectories (Path.parents path)
  match disk.create? path with
  | some (disk, sink) => ({ disk, sink? := some sink }, events)
  | none => ({ disk, sink? := none }, events ++ [.cannotCreate path])

/-- Writes blocks one after the other. -/
def writeAll (c : Channel) : List Bytes → Channel × List Event
  | [] => (c, [])
  | block :: rest =>
    let (c, events) := c.write block
    let (c, more) := c.writeAll rest
    (c, events ++ more)

end Channel

structure Writer where
  /-- The bytes that are not passed on yet. -/
  held : Bytes := []
  /-- Has another writer taken over the channel? -/
  handedOver : Bool := false
  deriving DecidableEq, Repr

namespace Writer

/-- How many bytes a writer can hold. -/
def capacity : Nat := 4096

/-- Full blocks off the front of some bytes, and the rest, which fits into a buffer. -/
def blocks (s : Bytes) : List Bytes × Bytes :=
  if capacity < s.length then
    let (more, rest) := blocks (s.drop capacity)
    (s.take capacity :: more, rest)
  else ([], s)
termination_by s.length
decreasing_by simp only [List.length_drop, capacity] at *; omega

/-- Takes bytes, and passes on the blocks that are full and followed by more. -/
def write (w : Writer) (data : Bytes) : Writer × List Bytes :=
  let (full, rest) := blocks (w.held ++ data)
  ({ w with held := rest }, full)

/-- Passes on all that is held, if anything is. -/
def flush (w : Writer) : Writer × List Bytes :=
  ({ w with held := [] }, if w.held.isEmpty then [] else [w.held])

end Writer

/-- Writers under numbers that share a channel. -/
structure Writers where
  channel : Channel
  members : Std.ExtTreeMap Nat Writer

namespace Writers

/-- One writer on a channel, under the number zero. -/
def single (channel : Channel) : Writers := { channel, members := .empty |>.insert 0 {} }

/-- Replaces a writer and writes the blocks that it passes on. -/
def update (ws : Writers) (i : Nat) (result : Writer × List Bytes) : Writers × List Event :=
  let (channel, events) := ws.channel.writeAll result.2
  ({ channel, members := ws.members.insert i result.1 }, events)

def write (ws : Writers) (i : Nat) (data : Bytes) : Writers × List Event :=
  match ws.members[i]? with
  | some w => ws.update i (w.write data)
  | none => (ws, [])

/-- Writes portions of bytes one after the other. -/
def writeAll (ws : Writers) (i : Nat) : List Bytes → Writers × List Event
  | [] => (ws, [])
  | data :: rest =>
    let (ws, events) := ws.write i data
    let (ws, more) := ws.writeAll i rest
    (ws, events ++ more)

def flush (ws : Writers) (i : Nat) : Writers × List Event :=
  match ws.members[i]? with
  | some w => ws.update i w.flush
  | none => (ws, [])

/-- Drops a writer. The one that has the channel flushes what it holds and closes the channel; of any
other what it holds is gone. -/
def drop (ws : Writers) (i : Nat) : Writers × List Event :=
  match ws.members[i]? with
  | some w =>
    if w.handedOver then ({ ws with members := ws.members.erase i }, [])
    else
      let (ws, events) := ws.update i w.flush
      ({ channel := ws.channel.close, members := ws.members.erase i }, events)
  | none => (ws, [])

/-- Hands the channel over from one writer to a new one under another number, which holds nothing. A
writer that was there under that number is dropped. -/
def handOver (ws : Writers) (i target : Nat) : Writers × List Event :=
  match ws.members[i]? with
  | some w =>
    let released := { ws with members := ws.members.insert i { w with handedOver := true } }
    let (ws, events) := released.drop target
    ({ ws with members := ws.members.insert target { held := [] } }, events)
  | none => (ws, [])

/-- Drops all writers, in the order of their numbers. -/
def dropAll (ws : Writers) : Writers × List Event :=
  ws.members.keys.foldl
    (fun (ws, events) i =>
      let (ws, more) := ws.drop i
      (ws, events ++ more))
    (ws, [])

end Writers

end Stencil
