import Stencil.Proofs.Buffering
import Stencil.Proofs.Runs

/-!
# What becomes of rendered text

Rendered text goes through a writer that is dropped then, and what is open has taken it, in order and once, or
some call has failed and the rest of its block is lost (`Writers.exists_fates`). A run that exits with 0 has
therefore delivered the text (`Program.Delivered`), or it has lost some of it, which it tells
(`Program.Lost`): no status reports a call that fails. The main statement is `run_delivers`, and
`not_delivered_to_full` is about runs of the second kind.
-/

namespace Stencil

open Channel (Accepts Fails Fate)

namespace Writers

theorem write_single (channel : Channel) (text : Bytes) :
    (single channel).write 0 text = used channel [.write text] := by
  simp [used, useAll, use]

/-- What becomes of the blocks that a writer passes on while it is used, and of those when it is dropped. -/
theorem exists_fates {channel : Channel} {sink : Disk.Sink} (hsink : channel.sink? = some sink)
    (uses : List Writer.Use) :
    let ws := used channel uses
    let dropped := ws.1.drop 0
    ∃ (early late : List Fate) (calls : Nat),
      (early ++ late).flatMap Fate.block = uses.flatMap Writer.Use.data ∧
      ws.2 = early.flatMap Fate.events ∧ dropped.2 = late.flatMap Fate.events ∧
      dropped.1.channel = (channel.taking sink ((early ++ late).flatMap Fate.taken) calls).close ∧
      ((∀ f ∈ early ++ late, f.lost = []) → ∃ after, Accepts sink channel (uses.flatMap Writer.Use.data) after) ∧
      ((∃ f ∈ early ++ late, f.lost ≠ []) → channel.Fails sink) := by
  intro ws dropped
  have hw : (({} : Writer).useAll uses).1.handedOver = false := Writer.handedOver_useAll _ uses
  have hdrop := drop_eq (getElem?_used channel uses) hw
  obtain ⟨early, n, hearly, hwrite, haccepts, hfails, -⟩ := Channel.exists_fates hsink (passed uses)
  have hchannel : ws.1.channel = channel.taking sink (early.flatMap Fate.taken) n := by
    rw [channel_used, hwrite]
  obtain ⟨late, m, hlate, hlast, haccepts', hfails', -⟩ :=
    Channel.exists_fates (c := channel.taking sink (early.flatMap Fate.taken) n) hsink
      (({} : Writer).useAll uses).1.flush.2
  have hblocks : (early ++ late).map Fate.block = passedInAll uses := by
    rw [List.map_append, hearly, hlate, passedInAll]
  rw [hchannel, hlast] at hdrop
  refine ⟨early, late, n + m, ?_, ?_, congrArg Prod.snd hdrop, ?_, fun hnone => ?_, ?_⟩
  · rw [List.flatMap_def, hblocks, flatten_passedInAll]
  · show (used channel uses).2 = _
    rw [used_eq]
    exact congrArg Prod.snd hwrite
  · rw [List.flatMap_append, ← Channel.taking_taking]
    exact congrArg (·.1.channel) hdrop
  · rw [← flatten_passedInAll, passedInAll, List.flatten_append]
    have hfirst := haccepts fun f hf => hnone f (List.mem_append_left _ hf)
    rw [hwrite] at hfirst
    exact ⟨_, hfirst.trans (haccepts' fun f hf => hnone f (List.mem_append_right _ hf))⟩
  · rintro ⟨f, hf, hne⟩
    rcases List.mem_append.mp hf with hf | hf
    · exact hfails ⟨f, hf, hne⟩
    · exact hfails' ⟨f, hf, hne⟩

end Writers

namespace Program

/-- The line that tells where the text went. -/
def doneLine (o : Options) : Bytes :=
  Console.line .info [.words "Rendered to ", .quote o.outputFile, .words "."]

/-! ## What can become of the text -/

/-- The text is where the command line wants it: on standard output with a newline behind it, or in what was
opened under the output path. No call that was to write it has failed, and every byte was taken, in order and
once. A file holds nothing else then. -/
inductive Delivered (o : Options) (answers : Channel.Answers) (disk : Disk) (text : Bytes) (exit : Exit) : Prop
  | printed {before : Bytes} {after : Channel} (hfile : o.outputFile = [])
      (haccepts : Accepts .standardOutput (standardOutput answers disk) (text ++ [Ascii.newline]) after)
      (hprinted : exit.printed = before ++ text ++ [Ascii.newline]) (hdisk : exit.disk = disk)
  | written {opened after : Channel} {sink : Disk.Sink} {events : List Event} (hfile : o.outputFile ≠ [])
      (hcreate : Channel.create disk o.outputFile = (opened, events)) (hsink : opened.sink? = some sink)
      (haccepts : Accepts sink { opened with answers } text after) (hdisk : exit.disk = after.disk)
      (hread : ∀ place, sink = .file place → exit.disk.read o.outputFile = .ok text)

/-- Some call that was to write the text has failed, and the rest of its block is lost. What was taken is on
standard output, or in what was opened under the output path, and how many bytes were lost is told. -/
inductive Lost (o : Options) (answers : Channel.Answers) (disk : Disk) (text : Bytes) (exit : Exit) : Prop
  | printed {before : Bytes} {fates : List Fate} (hfile : o.outputFile = [])
      (hblocks : fates.flatMap Fate.block = text ++ [Ascii.newline]) (hlost : ∃ f ∈ fates, f.lost ≠ [])
      (hfails : (standardOutput answers disk).Fails .standardOutput)
      (hprinted : exit.printed = before ++ fates.flatMap Fate.taken ++
        Event.reports o.debug (fates.flatMap Fate.events))
      (hdisk : exit.disk = disk)
  | written {opened : Channel} {sink : Disk.Sink} {events : List Event} {before : Bytes} {early late : List Fate}
      (hfile : o.outputFile ≠ [])
      (hcreate : Channel.create disk o.outputFile = (opened, events)) (hsink : opened.sink? = some sink)
      (hblocks : (early ++ late).flatMap Fate.block = text) (hlost : ∃ f ∈ early ++ late, f.lost ≠ [])
      (hfails : { opened with answers }.Fails sink)
      (hprinted : exit.printed = before ++ Event.reports o.debug (early.flatMap Fate.events) ++ doneLine o ++
        Event.reports o.debug (late.flatMap Fate.events))
      (hdisk : exit.disk = opened.disk.append ((early ++ late).flatMap Fate.taken) sink)

theorem reports_append (debug : Bool) (events more : List Event) :
    Event.reports debug (events ++ more) = Event.reports debug events ++ Event.reports debug more := by
  rw [Event.reports, List.filterMap_append, List.flatten_append]
  rfl

section

variable {o : Options} {answers : Channel.Answers} {disk : Disk}

/-! ## Standard output -/

theorem writeOut_delivers (hfile : o.outputFile = []) (text before : Bytes) (asked : List Bytes) :
    let written := writeOut o answers text disk
    let exit := { written with messages := before ++ written.messages, asked }
    Delivered o answers disk text exit ∨ Lost o answers disk text exit := by
  intro written exit
  have hsink : (standardOutput answers disk).sink? = some .standardOutput := rfl
  obtain ⟨early, late, calls, hblocks, hearly, hlate, hchannel, haccepts, hfails⟩ :=
    Writers.exists_fates hsink [.write text, .write [Ascii.newline]]
  have htext : [Writer.Use.write text, .write [Ascii.newline]].flatMap Writer.Use.data =
      text ++ [Ascii.newline] := rfl
  rw [htext] at hblocks haccepts
  -- Standard output is not closed.
  have hclose (c : Channel) (h : c.sink? = some .standardOutput) : c.close = c := by
    rw [Channel.close, if_pos h]
  rw [hclose _ rfl] at hchannel
  have hwritten : written =
      { status := 0, messages := [], output := (early ++ late).flatMap Fate.taken,
        losses := Event.reports o.debug ((early ++ late).flatMap Fate.events), disk } := by
    have hused := Writers.writeAll_single (standardOutput answers disk) [text, [Ascii.newline]]
    rw [List.map_cons, List.map_cons, List.map_nil] at hused
    show writeOut o answers text disk = _
    simp only [writeOut, hused, Writers.dropAll_used, hearly, hlate, hchannel]
    simp [Channel.taking, standardOutput, Disk.append]
  have hprinted : exit.printed = before ++ (early ++ late).flatMap Fate.taken ++
      Event.reports o.debug ((early ++ late).flatMap Fate.events) := by
    simp [exit, hwritten, Exit.printed]
  have hdisk : exit.disk = disk := congrArg Exit.disk hwritten
  by_cases hlost : ∃ f ∈ early ++ late, f.lost ≠ []
  · exact .inr (.printed hfile hblocks hlost (hfails hlost) hprinted hdisk)
  · have hnone : ∀ f ∈ early ++ late, f.lost = [] := by simpa using hlost
    obtain ⟨htaken, hevents⟩ := Channel.flatMap_taken hnone
    obtain ⟨after, haccepts⟩ := haccepts hnone
    have hends : exit.printed = before ++ text ++ [Ascii.newline] := by
      rw [hprinted, htaken, hevents, hblocks, ← List.append_assoc]
      exact List.append_nil _
    exact .inl (.printed hfile haccepts hends hdisk)

/-! ## Files -/

/-- A file that was opened under a path holds what it was given, and is found there. -/
theorem read_append {d opened : Disk} {path : Bytes} {place : Location}
    (hcreate : d.create? path = some (opened, .file place)) (text : Bytes) :
    (opened.append text (.file place)).read path = .ok text := by
  rcases Disk.create?_eq_some hcreate with ⟨dev, -, hsink⟩ | ⟨place', hsink, -, -, hfind⟩
  · cases hsink
  · cases hsink
    obtain ⟨hpath, hnode, hasks⟩ := Disk.pathTo_of_found hfind
    have hfind' := Disk.find_of_pathTo (hpath.of_grows (Disk.grows_append hnode text))
      (Disk.node?_append hnode text) fun h => nomatch hasks h
    simp only [Disk.read, hfind', List.nil_append]

/-- What becomes of the text when the output file could be opened. What is left when full blocks were passed on
goes out when the writer is dropped, which is after the line that tells where the text went. -/
theorem writeFile_delivers (hfile : o.outputFile ≠ []) {opened : Disk} {sink : Disk.Sink} {events : List Event}
    (hcreate? : (disk.makeDirectories (Path.parents o.outputFile)).1.create? o.outputFile =
      some (opened, sink))
    (hcreate : Channel.create disk o.outputFile = ({ disk := opened, sink? := some sink }, events))
    (text before : Bytes) (asked : List Bytes) :
    let written := writeFile o answers text disk
    let exit := { written with messages := before ++ written.messages, asked }
    Delivered o answers disk text exit ∨ Lost o answers disk text exit := by
  intro written exit
  have hsink : ({ disk := opened, sink? := some sink, answers } : Channel).sink? = some sink := rfl
  obtain ⟨early, late, calls, hblocks, hearly, hlate, hchannel, haccepts, hfails⟩ :=
    Writers.exists_fates hsink [.write text]
  have htext : [Writer.Use.write text].flatMap Writer.Use.data = text := List.append_nil text
  rw [htext] at hblocks haccepts
  have hwritten : written =
      { status := 0
        messages := Event.reports o.debug (events ++ early.flatMap Fate.events) ++ doneLine o ++
          Event.reports o.debug (late.flatMap Fate.events)
        disk := opened.append ((early ++ late).flatMap Fate.taken) sink } := by
    show writeFile o answers text disk = _
    simp only [writeFile, hcreate, Writers.write_single, Writers.dropAll_used]
    rw [if_neg (by simp), hearly, hlate, hchannel, Channel.disk_close]
    rfl
  have hprinted : exit.printed = before ++ Event.reports o.debug events ++
      Event.reports o.debug (early.flatMap Fate.events) ++ doneLine o ++
      Event.reports o.debug (late.flatMap Fate.events) := by
    simp [exit, hwritten, Exit.printed, reports_append]
  have hdisk : exit.disk = opened.append ((early ++ late).flatMap Fate.taken) sink :=
    congrArg Exit.disk hwritten
  by_cases hlost : ∃ f ∈ early ++ late, f.lost ≠ []
  · exact .inr (.written hfile hcreate rfl hblocks hlost (hfails hlost) hprinted hdisk)
  · have hnone : ∀ f ∈ early ++ late, f.lost = [] := by simpa using hlost
    obtain ⟨htaken, -⟩ := Channel.flatMap_taken hnone
    obtain ⟨after, haccepts⟩ := haccepts hnone
    obtain ⟨_, rfl⟩ := haccepts.eq_taking
    rw [htaken, hblocks] at hdisk
    refine .inl (.written hfile hcreate rfl haccepts hdisk fun place hplace => ?_)
    subst hplace
    rw [hdisk]
    exact read_append hcreate? text

end

/-! ## Runs that succeed -/

/-- A run that exits with 0, and does not only list sections, has rendered the template and delivered the
text; or a call that was to write it has failed, and the run has told how many bytes were lost, and nevertheless
exits with 0. -/
theorem run_delivers (conditions : Conditions) (program : Bytes) (words : List Bytes) (disk : Disk)
    (hstatus : (run program words disk conditions).status = 0) :
    ∃ notices o, Options.read words = (notices, some o) ∧ (o.printSections = false →
      ∃ text out, template o disk = .ok text ∧ result conditions o text disk = .ok out ∧
        (Delivered o conditions.answers disk out (run program words disk conditions) ∨
          Lost o conditions.answers disk out (run program words disk conditions))) := by
  have hread : ∃ notices o, Options.read words = (notices, some o) := by
    rcases hread : Options.read words with ⟨notices, _ | o⟩
    · simp [run, hread] at hstatus
    · exact ⟨notices, o, rfl⟩
  obtain ⟨notices, o, hread⟩ := hread
  refine ⟨notices, o, hread, fun hlist => ?_⟩
  cases runs_run conditions hread program disk with
  | unread htemplate hfailed _ => cases hstatus.symm.trans hfailed
  | listed htemplate hlisted _ _ => cases hlist.symm.trans hlisted
  | failed htemplate _ hresult hfailed _ => cases hstatus.symm.trans hfailed
  | @rendered text out before asked htemplate _ hresult hexit =>
    refine ⟨text, out, htemplate, hresult, ?_⟩
    rw [hexit] at hstatus ⊢
    by_cases hfile : o.outputFile = []
    · rw [deliver, if_pos (List.isEmpty_iff.mpr hfile)]
      exact writeOut_delivers hfile out before asked
    · rw [deliver, if_neg (by simpa using hfile)] at hstatus ⊢
      rcases Channel.create_cases disk o.outputFile with ⟨opened, sink, hcreate?, hcreate⟩ | hcreate
      · exact writeFile_delivers hfile hcreate? hcreate out before asked
      · simp [writeFile, hcreate] at hstatus

/-- The command line that brings a greeting to a path, or to standard output. -/
def greeting (path : String) : List Bytes :=
  [Bytes.ofString "-s", Bytes.ofString "hi", Bytes.ofString "-o", Bytes.ofString path]

/-- The options of that command line. -/
def greetingOptions (path : String) : Options :=
  { input? := some (Bytes.ofString "hi"), isString := true, outputFile := Bytes.ofString path }

/-- Each call takes one byte. -/
theorem run_delivers_of_greeting :
    let conditions : Conditions := { answers := fun _ _ => 1 }
    let exit := run (Bytes.ofString "stencil") (greeting "a/b") .empty conditions
    exit.status = 0 ∧
      Delivered (greetingOptions "a/b") conditions.answers .empty (Bytes.ofString "hi") exit := by
  intro conditions exit
  have hread : Options.read (greeting "a/b") = ([], some (greetingOptions "a/b")) := by decide
  have hrun : exit.status = 0 ∧
      result conditions (greetingOptions "a/b") (Bytes.ofString "hi") .empty = .ok (Bytes.ofString "hi") ∧
      (Channel.create .empty (greetingOptions "a/b").outputFile).1.sink? =
        some (.file [Bytes.ofString "work", Bytes.ofString "a", Bytes.ofString "b"]) ∧
      (Channel.create .empty (greetingOptions "a/b").outputFile).1.closed = false := by
    decide +kernel
  obtain ⟨hstatus, hresult, hsink, hopen⟩ := hrun
  obtain ⟨notices, o, ho, hdelivers⟩ := run_delivers _ _ _ _ hstatus
  cases hread.symm.trans ho
  obtain ⟨text, out, htemplate, hout, hdelivered | hlost⟩ := hdelivers rfl
  · cases htemplate
    cases hresult.symm.trans hout
    exact ⟨hstatus, hdelivered⟩
  · cases hlost with
    | printed hfile => exact absurd hfile (by decide)
    | written _ hcreate hsink' _ _ hfails =>
      obtain ⟨calls, given, hgiven, hroom⟩ := hfails
      rw [hcreate] at hsink hopen
      cases hsink'.symm.trans hsink
      simp only [Channel.room] at hroom
      exact absurd hroom (by grind)

/-- A run that exits with 0, and what is open has refused what it was to deliver: the device that takes nothing,
or standard output where every call fails. -/
theorem not_delivered_to_full :
    let full := run (Bytes.ofString "stencil") (greeting "/dev/full") .empty
    let refusing : Conditions := { answers := fun _ _ => 0 }
    let words := [Bytes.ofString "-s", Bytes.ofString "hi"]
    let refused := run (Bytes.ofString "stencil") words .empty refusing
    (full.status = 0 ∧ Options.read (greeting "/dev/full") = ([], some (greetingOptions "/dev/full")) ∧
      (greetingOptions "/dev/full").printSections = false ∧
      result {} (greetingOptions "/dev/full") (Bytes.ofString "hi") .empty = .ok (Bytes.ofString "hi") ∧
      ∀ answers, ¬Delivered (greetingOptions "/dev/full") answers .empty (Bytes.ofString "hi") full) ∧
    (refused.status = 0 ∧ Options.read words = ([], some (greetingOptions "")) ∧
      (greetingOptions "").printSections = false ∧
      result refusing (greetingOptions "") (Bytes.ofString "hi") .empty = .ok (Bytes.ofString "hi") ∧
      ¬Delivered (greetingOptions "") refusing.answers .empty (Bytes.ofString "hi") refused) := by
  intro full refusing words refused
  have hread : Options.read (greeting "/dev/full") = ([], some (greetingOptions "/dev/full")) ∧
      Options.read words = ([], some (greetingOptions "")) := by
    decide
  have hfull : full.status = 0 ∧
      result {} (greetingOptions "/dev/full") (Bytes.ofString "hi") .empty = .ok (Bytes.ofString "hi") ∧
      (Channel.create .empty (greetingOptions "/dev/full").outputFile).1.sink? = some (.device .full) := by
    decide +kernel
  have hrefused : refused.status = 0 ∧
      result refusing (greetingOptions "") (Bytes.ofString "hi") .empty = .ok (Bytes.ofString "hi") := by
    decide +kernel
  obtain ⟨hstatus, hresult, hsink⟩ := hfull
  refine ⟨⟨hstatus, hread.1, rfl, hresult, fun answers hdelivered => ?_⟩,
    hrefused.1, hread.2, rfl, hrefused.2, fun hdelivered => ?_⟩
  · cases hdelivered with
    | printed hfile => exact absurd hfile (by decide)
    | written _ hcreate hsink' haccepts =>
      rw [hcreate] at hsink
      cases hsink'.symm.trans hsink
      exact absurd (haccepts.eq_nil fun _ _ => by simp [Channel.room]) (by decide)
  · cases hdelivered with
    | printed _ haccepts =>
      exact absurd (haccepts.eq_nil fun _ _ => by simp [Channel.room, standardOutput, refusing]) (by decide)
    | written hfile => exact absurd rfl hfile

end Program

end Stencil
