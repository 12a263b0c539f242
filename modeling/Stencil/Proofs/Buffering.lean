import Stencil.Proofs.WriteCalls

/-!
# Buffered bytes are conserved

What a writer has passed on with what it holds behind it is all that it has taken (`Writer.append_useAll`),
and it never holds more than fits (`Writer.held_useAll_le`); both go from one call to a row of calls by
induction on the row. It makes no difference whether bytes are written at once or in portions
(`Writer.write_append`), so this is so in the middle of a call as well. What becomes of the blocks depends on
the channel: a file takes each of them, in as many calls as it needs (`Channel.Takes.writeAll`), a channel that
refuses tells how many bytes were lost (`Channel.writeAll_of_refuses`), and without a channel they are gone
(`Channel.writeAll_of_none`). The main statement is `Writers.used_conserves`.
-/

namespace Stencil

namespace Writer

/-! ## Blocks and the rest -/

theorem append_blocks (s : Bytes) : (blocks s).1.flatten ++ (blocks s).2 = s := by
  fun_induction blocks s with
  | case1 s hlong more rest heq ih =>
    rw [heq] at ih
    rw [List.flatten_cons, List.append_assoc, ih, List.take_append_drop]
  | case2 s hshort => rfl

theorem length_blocks_le (s : Bytes) : (blocks s).2.length ≤ capacity := by
  fun_induction blocks s with
  | case1 s hlong more rest heq ih =>
    rw [heq] at ih
    exact ih
  | case2 s hshort => exact Nat.not_lt.mp hshort

/-- The blocks of two texts in a row are those of the first one, and then those of its rest with the second one
behind it. -/
theorem blocks_append (s t : Bytes) :
    blocks (s ++ t) =
      ((blocks s).1 ++ (blocks ((blocks s).2 ++ t)).1, (blocks ((blocks s).2 ++ t)).2) := by
  fun_induction blocks s with
  | case1 s hlong more rest heq ih =>
    have hlong' : capacity < (s ++ t).length := by
      rw [List.length_append]
      omega
    rw [heq] at ih
    rw [blocks, if_pos hlong', List.take_append_of_le_length (Nat.le_of_lt hlong),
      List.drop_append_of_le_length (Nat.le_of_lt hlong), ih]
    rfl
  | case2 s hshort => rfl

theorem flatten_flush (w : Writer) : w.flush.2.flatten = w.held := by
  cases hheld : w.held <;> simp [flush, hheld]

/-! ## Calls -/

/-- What a writer is used for as long as it is there. -/
inductive Use where
  | write (data : Bytes)
  | flush

/-- The bytes that a writer takes. -/
def Use.data : Use → Bytes
  | write data => data
  | flush => []

def use (w : Writer) : Use → Writer × List Bytes
  | .write data => w.write data
  | .flush => w.flush

/-- Uses a writer for one thing after the other. -/
def useAll (w : Writer) : List Use → Writer × List Bytes
  | [] => (w, [])
  | u :: rest =>
    let (w, full) := w.use u
    let (w, more) := w.useAll rest
    (w, full ++ more)

/-- Bytes can be written at once or in portions. -/
theorem write_append (w : Writer) (data more : Bytes) :
    w.write (data ++ more) =
      (((w.write data).1.write more).1, (w.write data).2 ++ ((w.write data).1.write more).2) := by
  simp only [write]
  rw [← List.append_assoc, blocks_append]

theorem useAll_append (w : Writer) (uses more : List Use) :
    w.useAll (uses ++ more) =
      (((w.useAll uses).1.useAll more).1, (w.useAll uses).2 ++ ((w.useAll uses).1.useAll more).2) := by
  induction uses generalizing w with
  | nil => rfl
  | cons u rest ih =>
    rw [List.cons_append, useAll, useAll]
    simp only [ih, List.append_assoc]

theorem append_use (w : Writer) (u : Use) : (w.use u).2.flatten ++ (w.use u).1.held = w.held ++ u.data := by
  cases u with
  | write data => exact append_blocks (w.held ++ data)
  | flush =>
    show w.flush.2.flatten ++ [] = w.held ++ []
    rw [flatten_flush]

theorem held_use_le (w : Writer) (u : Use) : (w.use u).1.held.length ≤ capacity := by
  cases u with
  | write data => exact length_blocks_le (w.held ++ data)
  | flush => exact Nat.zero_le capacity

theorem append_useAll (w : Writer) (uses : List Use) :
    (w.useAll uses).2.flatten ++ (w.useAll uses).1.held = w.held ++ uses.flatMap Use.data := by
  induction uses generalizing w with
  | nil => simp [useAll]
  | cons u rest ih =>
    calc (w.useAll (u :: rest)).2.flatten ++ (w.useAll (u :: rest)).1.held
      _ = (w.use u).2.flatten ++ (((w.use u).1.useAll rest).2.flatten ++ ((w.use u).1.useAll rest).1.held) := by
        simp [useAll]
      _ = ((w.use u).2.flatten ++ (w.use u).1.held) ++ rest.flatMap Use.data := by rw [ih, List.append_assoc]
      _ = w.held ++ (u :: rest).flatMap Use.data := by
        rw [append_use, List.append_assoc, List.flatMap_cons]

theorem held_useAll_le (w : Writer) (hheld : w.held.length ≤ capacity) (uses : List Use) :
    (w.useAll uses).1.held.length ≤ capacity := by
  induction uses generalizing w with
  | nil => exact hheld
  | cons u rest ih => exact ih _ (w.held_use_le u)

theorem handedOver_use (w : Writer) (u : Use) : (w.use u).1.handedOver = w.handedOver := by
  cases u <;> rfl

theorem handedOver_useAll (w : Writer) (uses : List Use) : (w.useAll uses).1.handedOver = w.handedOver := by
  induction uses generalizing w with
  | nil => rfl
  | cons u rest ih => exact (ih _).trans (w.handedOver_use u)

end Writer

/-! ## Where the blocks go -/

namespace Channel

/-- What is open is a file with this content, and each call that is to write bytes to it takes some of them. -/
structure Takes (c : Channel) (place : Location) (content : Bytes) : Prop where
  sink : c.sink? = some (.file place)
  isOpen : c.closed = false
  node : c.disk.node? place = some (.file content)
  willing : ∀ calls given, 0 < given → 0 < c.answers calls given

theorem Takes.not_fails {c : Channel} {place : Location} {content : Bytes} (h : c.Takes place content) :
    ¬c.Fails (.file place) := by
  rintro ⟨calls, given, hgiven, hroom⟩
  have hanswer := h.willing calls given hgiven
  simp only [room, h.isOpen] at hroom
  grind

theorem disk_close (c : Channel) : c.close.disk = c.disk := by
  unfold close
  split <;> rfl

theorem writeAll_append (c : Channel) (blocks more : List Bytes) :
    c.writeAll (blocks ++ more) =
      (((c.writeAll blocks).1.writeAll more).1,
        (c.writeAll blocks).2 ++ ((c.writeAll blocks).1.writeAll more).2) := by
  induction blocks generalizing c with
  | nil => rfl
  | cons block rest ih =>
    rw [List.cons_append, writeAll, writeAll]
    simp only [ih, List.append_assoc]

/-- A file gets all the bytes in order, nothing else is changed, and nothing is told. -/
theorem Takes.writeAll {c : Channel} {place : Location} {content : Bytes} (h : c.Takes place content)
    (blocks : List Bytes) :
    (c.writeAll blocks).1.Takes place (content ++ blocks.flatten) ∧ (c.writeAll blocks).2 = [] ∧
      (c.writeAll blocks).1.disk.working = c.disk.working ∧
      ∀ other, other ≠ place → (c.writeAll blocks).1.disk.node? other = c.disk.node? other := by
  obtain ⟨calls, hwrite⟩ := writeAll_of_willing h.sink h.not_fails blocks
  rw [hwrite]
  exact ⟨⟨h.sink, h.isOpen, Disk.node?_append h.node _, h.willing⟩, rfl,
    (Disk.grows_append h.node _).working, fun other => c.disk.node?_append_of_ne _⟩

theorem writeAll_of_none {c : Channel} (h : c.sink? = none) (blocks : List Bytes) :
    c.writeAll blocks = (c, []) := by
  induction blocks with
  | nil => rfl
  | cons block rest ih =>
    rw [writeAll, write, h]
    simp only [ih]
    rfl

end Channel

/-! ## A writer on a channel -/

namespace Writers

variable {ws : Writers} {i : Nat} {w : Writer}

def use (ws : Writers) (i : Nat) : Writer.Use → Writers × List Event
  | .write data => ws.write i data
  | .flush => ws.flush i

/-- Uses one of the writers for one thing after the other. -/
def useAll (ws : Writers) (i : Nat) : List Writer.Use → Writers × List Event
  | [] => (ws, [])
  | u :: rest =>
    let (ws, events) := ws.use i u
    let (ws, more) := ws.useAll i rest
    (ws, events ++ more)

theorem use_eq (h : ws.members[i]? = some w) (u : Writer.Use) : ws.use i u = ws.update i (w.use u) := by
  cases u with
  | write data => simp [use, write, h, Writer.use]
  | flush => simp [use, flush, h, Writer.use]

theorem getElem?_update (ws : Writers) (i : Nat) (result : Writer × List Bytes) :
    (ws.update i result).1.members[i]? = some result.1 :=
  Std.ExtTreeMap.getElem?_insert_self

theorem update_self (h : ws.members[i]? = some w) : ws.update i (w, []) = (ws, []) := by
  have hmembers : ws.members.insert i w = ws.members := by
    apply Std.ExtTreeMap.ext_getElem?
    grind
  show (({ channel := ws.channel, members := ws.members.insert i w } : Writers), _) = _
  rw [hmembers]

/-- Two updates of one writer are one, with the blocks of both. -/
theorem update_update (ws : Writers) (i : Nat) (w : Writer) (full : List Bytes)
    (result : Writer × List Bytes) :
    ws.update i (result.1, full ++ result.2) =
      (((ws.update i (w, full)).1.update i result).1,
        (ws.update i (w, full)).2 ++ ((ws.update i (w, full)).1.update i result).2) := by
  have hmembers : (ws.members.insert i w).insert i result.1 = ws.members.insert i result.1 := by
    apply Std.ExtTreeMap.ext_getElem?
    grind
  simp only [update, Channel.writeAll_append, hmembers]

theorem useAll_eq (h : ws.members[i]? = some w) (uses : List Writer.Use) :
    ws.useAll i uses = ws.update i (w.useAll uses) := by
  induction uses generalizing ws w with
  | nil => exact (update_self h).symm
  | cons u rest ih =>
    have hmember := ws.getElem?_update i (w.use u)
    rw [useAll, use_eq h]
    simp only [ih hmember]
    exact (update_update ws i (w.use u).1 (w.use u).2 ((w.use u).1.useAll rest)).symm

/-- A writer that has the channel flushes what it holds and closes the channel when it is dropped. -/
theorem drop_eq (h : ws.members[i]? = some w) (hw : w.handedOver = false) :
    ws.drop i =
      ({ channel := (ws.channel.writeAll w.flush.2).1.close, members := ws.members.erase i },
        (ws.channel.writeAll w.flush.2).2) := by
  have hmembers : (ws.members.insert i w.flush.1).erase i = ws.members.erase i := by
    apply Std.ExtTreeMap.ext_getElem?
    grind
  simp only [drop, h, hw, update, hmembers]
  rfl

/-! ## One writer -/

/-- A writer on a channel of its own, after it was used like this. -/
def used (channel : Channel) (uses : List Writer.Use) : Writers × List Event := (single channel).useAll 0 uses

/-- Such a writer after it was dropped as well. -/
def usedUp (channel : Channel) (uses : List Writer.Use) : Writers × List Event :=
  let (ws, events) := used channel uses
  let (ws, last) := ws.drop 0
  (ws, events ++ last)

/-- What a writer holds that was used like this. -/
def held (uses : List Writer.Use) : Bytes := (({} : Writer).useAll uses).1.held

/-- The blocks that it has passed on. -/
def passed (uses : List Writer.Use) : List Bytes := (({} : Writer).useAll uses).2

/-- The blocks that it has passed on when it was dropped. -/
def passedInAll (uses : List Writer.Use) : List Bytes := passed uses ++ (({} : Writer).useAll uses).1.flush.2

theorem getElem?_single (channel : Channel) : (single channel).members[0]? = some ({} : Writer) :=
  Std.ExtTreeMap.getElem?_insert_self

theorem used_eq (channel : Channel) (uses : List Writer.Use) :
    used channel uses = (single channel).update 0 (({} : Writer).useAll uses) :=
  useAll_eq (getElem?_single channel) uses

theorem getElem?_used (channel : Channel) (uses : List Writer.Use) :
    (used channel uses).1.members[0]? = some (({} : Writer).useAll uses).1 := by
  rw [used_eq, getElem?_update]

theorem channel_used (channel : Channel) (uses : List Writer.Use) :
    (used channel uses).1.channel = (channel.writeAll (passed uses)).1 := by
  rw [used_eq]
  rfl

theorem usedUp_eq (channel : Channel) (uses : List Writer.Use) :
    (usedUp channel uses).1.channel = (channel.writeAll (passedInAll uses)).1.close ∧
      (usedUp channel uses).2 = (channel.writeAll (passedInAll uses)).2 := by
  have hw : (({} : Writer).useAll uses).1.handedOver = false := Writer.handedOver_useAll _ uses
  rw [usedUp]
  simp only [drop_eq (getElem?_used channel uses) hw]
  rw [used_eq, passedInAll, Channel.writeAll_append]
  exact ⟨rfl, rfl⟩

theorem passed_append_held (uses : List Writer.Use) :
    (passed uses).flatten ++ held uses = uses.flatMap Writer.Use.data :=
  ({} : Writer).append_useAll uses

theorem flatten_passedInAll (uses : List Writer.Use) :
    (passedInAll uses).flatten = uses.flatMap Writer.Use.data := by
  rw [passedInAll, List.flatten_append, Writer.flatten_flush]
  exact passed_append_held uses

theorem writeAll_eq_useAll (ws : Writers) (i : Nat) (portions : List Bytes) :
    ws.writeAll i portions = ws.useAll i (portions.map .write) := by
  induction portions generalizing ws with
  | nil => rfl
  | cons data rest ih =>
    rw [writeAll, List.map_cons, useAll]
    simp only [ih]
    rfl

theorem dropAll_used (channel : Channel) (uses : List Writer.Use) :
    (used channel uses).1.dropAll = (used channel uses).1.drop 0 := by
  have hkeys : (used channel uses).1.members.keys = [0] := by
    rw [used_eq]
    rfl
  rw [dropAll, hkeys]
  rfl

theorem writeAll_single (channel : Channel) (portions : List Bytes) :
    (single channel).writeAll 0 portions = used channel (portions.map .write) :=
  writeAll_eq_useAll _ 0 portions

theorem flatMap_data_write (portions : List Bytes) :
    (portions.map Writer.Use.write).flatMap Writer.Use.data = portions.flatten := by
  rw [List.flatMap_map]
  exact List.flatMap_id'

/-! ## Three kinds of channels -/

section

variable {channel : Channel} (uses : List Writer.Use)

theorem usedUp_of_takes {place : Location} {content : Bytes} (h : channel.Takes place content) :
    (usedUp channel uses).1.channel.disk.node? place =
        some (.file (content ++ uses.flatMap Writer.Use.data)) ∧
      (usedUp channel uses).1.channel.disk.working = channel.disk.working ∧
      (∀ other, other ≠ place →
        (usedUp channel uses).1.channel.disk.node? other = channel.disk.node? other) ∧
      (usedUp channel uses).2 = [] := by
  obtain ⟨htakes, hquiet, hworking, hother⟩ := h.writeAll (passedInAll uses)
  obtain ⟨hchannel, hevents⟩ := usedUp_eq channel uses
  rw [hchannel, hevents, Channel.disk_close]
  refine ⟨?_, hworking, hother, hquiet⟩
  rw [← flatten_passedInAll]
  exact htakes.node

/-- The line that tells how many bytes were lost. -/
def lossNotice (count : Nat) : Bytes :=
  Console.line .error
    [.words "Couldn't write output. ", .quote (Bytes.ofNat count), .words " bytes were lost."]

theorem reports_lost (debug : Bool) (counts : List Nat) :
    Event.reports debug (counts.map .lost) = counts.flatMap lossNotice := by
  induction counts with
  | nil => rfl
  | cons count rest ih =>
    rw [List.flatMap_cons, ← ih]
    rfl

theorem usedUp_of_refuses (h : channel.Refuses) :
    (∃ calls, (used channel uses).1.channel = { channel with calls }) ∧
      (usedUp channel uses).1.channel.disk = channel.disk ∧
      ∃ counts : List Nat, counts.sum = (uses.flatMap Writer.Use.data).length ∧
        ∀ debug, Event.reports debug (usedUp channel uses).2 = counts.flatMap lossNotice := by
  obtain ⟨calls, _, hused, -⟩ := Channel.writeAll_of_refuses h (passed uses)
  obtain ⟨_, counts, hwrite, hsum⟩ := Channel.writeAll_of_refuses h (passedInAll uses)
  obtain ⟨hchannel, hevents⟩ := usedUp_eq channel uses
  rw [channel_used, hchannel, hevents, Channel.disk_close, hused, hwrite]
  rw [flatten_passedInAll] at hsum
  exact ⟨⟨calls, rfl⟩, rfl, counts, hsum, fun debug => reports_lost debug counts⟩

theorem usedUp_of_none (h : channel.sink? = none) :
    (used channel uses).1.channel = channel ∧ (usedUp channel uses).1.channel.disk = channel.disk ∧
      (usedUp channel uses).2 = [] := by
  have hwrite := Channel.writeAll_of_none h
  obtain ⟨hchannel, hevents⟩ := usedUp_eq channel uses
  rw [channel_used, hchannel, hevents, Channel.disk_close, hwrite, hwrite]
  exact ⟨rfl, rfl, rfl⟩

end

/-- A writer never holds more than fits, however it is used. If what is open is a file that takes bytes, be it
in many calls, what the file has got with what the writer holds behind it is all that was written, in order, and
when the writer is dropped the file has got all of it. If every call is refused nothing but their number is
changed, and the bytes that are told to be lost add up to all that was written. If nothing is open, nothing is
changed and nothing is told. Where many bytes are written at once, what has come of the first of them is what
comes of writing no more than these. -/
theorem used_conserves (channel : Channel) (uses : List Writer.Use) :
    (∃ w, (used channel uses).1.members[0]? = some w ∧ w.held = held uses) ∧
    (held uses).length ≤ Writer.capacity ∧
    (∀ place content, channel.Takes place content →
      (∃ taken, (used channel uses).1.channel.Takes place (content ++ taken) ∧
        taken ++ held uses = uses.flatMap Writer.Use.data) ∧
      (usedUp channel uses).1.channel.disk.node? place =
        some (.file (content ++ uses.flatMap Writer.Use.data)) ∧
      (usedUp channel uses).2 = []) ∧
    (channel.Refuses →
      (∃ calls, (used channel uses).1.channel = { channel with calls }) ∧
      (usedUp channel uses).1.channel.disk = channel.disk ∧
      ∃ counts : List Nat, counts.sum = (uses.flatMap Writer.Use.data).length ∧
        ∀ debug, Event.reports debug (usedUp channel uses).2 = counts.flatMap lossNotice) ∧
    (channel.sink? = none →
      (used channel uses).1.channel = channel ∧ (usedUp channel uses).1.channel.disk = channel.disk ∧
      (usedUp channel uses).2 = []) ∧
    ∀ data more, used channel (uses ++ [.write (data ++ more)]) =
      used channel (uses ++ [.write data, .write more]) := by
  refine ⟨⟨_, getElem?_used channel uses, rfl⟩, Writer.held_useAll_le _ (Nat.zero_le _) uses,
    fun place content htakes => ?_, usedUp_of_refuses uses, usedUp_of_none uses, fun data more => ?_⟩
  · obtain ⟨hall, -, -, hquiet⟩ := usedUp_of_takes uses htakes
    refine ⟨⟨(passed uses).flatten, ?_, passed_append_held uses⟩, hall, hquiet⟩
    rw [channel_used]
    exact (htakes.writeAll (passed uses)).1
  · rw [used_eq, used_eq, Writer.useAll_append, Writer.useAll_append]
    simp only [Writer.useAll, Writer.use, Writer.write_append, List.append_nil]

/-- More bytes than fit are written twice: to a file that takes a thousand in each call, to one that refuses
every call, to the device that takes nothing and with nothing open. -/
theorem used_conserves_of_border :
    let uses : List Writer.Use :=
      [.write (List.replicate 4097 0x78), .flush, .write (List.replicate 8192 0x79)]
    let place := [Bytes.ofString "work", Bytes.ofString "out"]
    let opened := (Channel.create .empty (Bytes.ofString "out")).1
    let file : Channel := { opened with answers := fun _ => min 1000 }
    let refused : Channel := { opened with answers := fun _ _ => 0 }
    let full := (Channel.create .empty (Bytes.ofString "/dev/full")).1
    let nowhere : Channel := { disk := .empty, sink? := none }
    (file.Takes place [] ∧
      (usedUp file uses).1.channel.disk.node? place = some (.file (uses.flatMap Writer.Use.data)) ∧
      (usedUp file uses).2 = []) ∧
    (∀ channel ∈ [refused, full], channel.Refuses ∧ ∃ counts : List Nat, counts.sum = 12289 ∧
      ∀ debug, Event.reports debug (usedUp channel uses).2 = counts.flatMap lossNotice) ∧
    (nowhere.sink? = none ∧ (usedUp nowhere uses).2 = []) := by
  intro uses place opened file refused full nowhere
  have hfacts : (opened.sink? = some (.file place) ∧ opened.disk.node? place = some (.file [])) ∧
      full.sink? = some (.device .full) := by
    decide +kernel
  obtain ⟨⟨hopened, hnode⟩, hfull⟩ := hfacts
  have htakes : file.Takes place [] := by
    refine ⟨hopened, rfl, hnode, fun calls given hgiven => ?_⟩
    exact Nat.lt_min.mpr ⟨by decide, hgiven⟩
  have hrefuses : ∀ channel ∈ [refused, full], channel.Refuses := by
    intro channel hchannel
    rcases List.mem_pair.mp hchannel with rfl | rfl
    · exact ⟨_, hopened, fun _ _ => by simp [Channel.room, refused]⟩
    · exact ⟨_, hfull, fun _ _ => by simp [Channel.room]⟩
  have hlength (first last : Bytes) : ([.write first, .flush, .write last].flatMap Writer.Use.data).length =
      first.length + last.length := by
    simp [Writer.Use.data]
  have hborder : (uses.flatMap Writer.Use.data).length = 12289 := by
    rw [hlength, List.length_replicate, List.length_replicate]
  obtain ⟨-, -, hfile, -⟩ := used_conserves file uses
  obtain ⟨-, -, -, -, hnowhere, -⟩ := used_conserves nowhere uses
  obtain ⟨-, hall, hquiet⟩ := hfile place [] htakes
  rw [List.nil_append] at hall
  refine ⟨⟨htakes, hall, hquiet⟩, fun channel hchannel => ?_, rfl, (hnowhere rfl).2.2⟩
  obtain ⟨-, -, -, hrefused, -⟩ := used_conserves channel uses
  exact ⟨hrefuses channel hchannel, hborder ▸ (hrefused (hrefuses channel hchannel)).2.2⟩

end Writers

end Stencil
