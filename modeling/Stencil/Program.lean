import Stencil.Options
import Stencil.Render
import Stencil.Section.Outline

/-!
# The program

What a command line does to the disk, what it prints, and how it exits. The template is read, then
either its sections are listed or it is rendered with the variables of the command line; the result
goes to the output file or to standard output. Whatever fails on the way is reported there too, and
makes the program exit with 1. What is not in the program's hands are the conditions of a run
(`Program.Conditions`).
-/

namespace Stencil

/-! ## Variables in JSON -/

/-- What a document says that is to give variables. -/
inductive JsonDocument where
  /-- It is not in JSON. -/
  | invalid
  /-- It is in JSON, and is no object. -/
  | noObject
  /-- It is an object with these members. A number or a string is the value itself, and anything else is the
  text of its JSON. -/
  | object (members : List (Bytes × Value))

/-- How documents in JSON are read. -/
abbrev JsonReader := Bytes → JsonDocument

/-- The variables that a document gives. -/
def JsonDocument.variables : JsonDocument → Except Failure Environment
  | invalid => .error (refused "invalid JSON")
  | noObject => .error (refused "variables must be a JSON object")
  | object members => .ok (members.foldl (fun env (name, value) => env.insert name (.ofValue value)) ∅)
where
  refused (detail : String) : Failure :=
    { kind := .parseError, name := Bytes.ofString "json", detail := Bytes.ofString detail }

namespace Options

/-- The variable of a `-v` option: a number if its value reads as one. -/
def variableOf (value : Bytes) : Variable :=
  match Numeral.read? value with
  | some x => .ofValue (.number x)
  | none => .ofValue (.text value)

/-- An environment with the variables of the `-v` options; of those with the same name the last counts. -/
def define (env : Environment) (definitions : List (Bytes × Bytes)) : Environment :=
  definitions.foldl (fun env (name, value) => env.insert name (variableOf value)) env

/-- The variables of the document that a command line gives, in a file or as it is. -/
def jsonVariables (o : Options) (json : JsonReader) : Action Unit Environment := do
  if !o.jsonFile.isEmpty then
    match (← Action.world).disk.read o.jsonFile with
    | .ok document => Action.ofExcept (json document).variables
    | .error event =>
      Action.tell event
      Action.fail
        { kind := .parseError, name := o.jsonFile,
          detail := Bytes.ofString "could not read JSON file" }
  else if !o.json.isEmpty then Action.ofExcept (json o.json).variables
  else return ∅

/-- The variables that a command line gives, those of the document first. -/
def allVariables (o : Options) (json : JsonReader) : Action Unit Environment := do
  let env := define (← o.jsonVariables json) o.definitions
  env.toList.forM fun (name, v) => Action.tell (.step o.debug (.given name v))
  return env

/-- The environment that these variables make. Where it is not said how documents are read, none is accepted. -/
def environment (o : Options) (w : World Unit) (json : JsonReader := fun _ => .invalid) :
    Outcome Unit Environment :=
  o.allVariables json w

/-- The session that a command line runs in. -/
def session (o : Options) : Session Unit :=
  { base := o.baseDirectory, limit := o.maxDepth, debug := o.debug }

end Options

namespace Program

/-- What a run of the program depends on apart from its command line and the disk: how calls are answered
that write the rendered text, which numbers are drawn at random, and how documents in JSON are read. -/
structure Conditions where
  answers : Channel.Answers := fun _ given => given
  draws : Nat → Nat := fun _ => 0
  json : JsonReader := fun _ => .invalid

/-- How a run of the program ended. -/
structure Exit where
  status : Nat
  /-- The messages, up to those that come after a text that was written to standard output. -/
  messages : Bytes
  /-- What standard output has taken of the text. -/
  output : Bytes := []
  /-- The messages after the text. -/
  losses : Bytes := []
  disk : Disk
  /-- The paths of files that were looked for in vain and of directories that were listed: what else
  a disk would have to hold for a run on it to see more. -/
  asked : List Bytes := []

/-- Everything that was printed. Messages go through a buffer of their own, and the first ones leave it
before any text is written. -/
def Exit.printed (exit : Exit) : Bytes := exit.messages ++ exit.output ++ exit.losses

/-- How to use the program of this name. -/
def usage (program : Bytes) : Bytes :=
  Bytes.ofString "\tusage: " ++ program ++ Bytes.ofString
    " [-s] [-js json | -jf file] [-v name value]... [-b dir] [-o file] [-m depth] [-p] [-d] input\n"

/-- The line that reports a failure. -/
def report (failure : Failure) : Bytes :=
  Console.line .error [.quote failure.kind.write, .words ": ", .quote failure.message]

/-- The template that a command line names. -/
def template (o : Options) (disk : Disk) : Except Event Bytes :=
  let input := o.input?.getD []
  if o.isString then .ok input else disk.read input

/-- Lists the sections of a template. -/
def list (text : Bytes) (disk : Disk) : Exit :=
  match Template.parse (Comment.strip text) with
  | .ok d => { status := 0, messages := d.sections.flatMap (Section.outline 0), disk }
  | .error failure => { status := 1, messages := report failure, disk }

/-- What a template becomes with the variables of a command line. -/
def rendered (o : Options) (json : JsonReader) (text : Bytes) : Action Unit Bytes := do
  let env ← o.allVariables json
  o.session.render 0 env text

/-- The way to standard output, which is open from the start. -/
def standardOutput (answers : Channel.Answers) (disk : Disk) : Channel :=
  { disk, sink? := some .standardOutput, answers }

/-- Writes rendered text to standard output, with a newline behind it. -/
def writeOut (o : Options) (answers : Channel.Answers) (text : Bytes) (disk : Disk) : Exit :=
  let channel := standardOutput answers disk
  let (writers, events) := (Writers.single channel).writeAll 0 [text, [Ascii.newline]]
  let (writers, last) := writers.dropAll
  { status := 0
    messages := []
    output := writers.channel.output
    losses := Event.reports o.debug (events ++ last)
    disk := writers.channel.disk }

/-- Writes rendered text to a file. The program exits with 0 as soon as the file is open. -/
def writeFile (o : Options) (answers : Channel.Answers) (text : Bytes) (disk : Disk) : Exit :=
  let (channel, events) := Channel.create disk o.outputFile
  if channel.sink?.isNone then
    { status := 1, messages := Event.reports o.debug events, disk := channel.disk }
  else
    let (writers, more) := (Writers.single { channel with answers }).write 0 text
    let (writers, last) := writers.dropAll
    let done := Console.line .info [.words "Rendered to ", .quote o.outputFile, .words "."]
    { status := 0
      messages := Event.reports o.debug (events ++ more) ++ done ++ Event.reports o.debug last
      disk := writers.channel.disk }

/-- Brings rendered text where the command line wants it. -/
def deliver (o : Options) (answers : Channel.Answers) (text : Bytes) (disk : Disk) : Exit :=
  if o.outputFile.isEmpty then writeOut o answers text disk else writeFile o answers text disk

/-- Runs with options that could be read. -/
def runWith (o : Options) (disk : Disk) (conditions : Conditions) : Exit :=
  match template o disk with
  | .error event =>
    { status := 1, messages := Event.reports o.debug [event], disk, asked := event.asked?.toList }
  | .ok text =>
    if o.printSections then list text disk
    else
      let outcome := rendered o conditions.json text { disk, host := (), draws := conditions.draws }
      let steps := Event.reports o.debug outcome.events
      let asked := outcome.events.filterMap Event.asked?
      match outcome.result with
      | .error failure =>
        { status := 1, messages := steps ++ report failure, disk := outcome.world.disk, asked }
      | .ok text =>
        let exit := deliver o conditions.answers text outcome.world.disk
        { exit with messages := steps ++ exit.messages, asked }

/-- Runs the program of this name with a command line. -/
def run (program : Bytes) (words : List Bytes) (disk : Disk) (conditions : Conditions := {}) : Exit :=
  let (notices, result) := Options.read words
  let notes := notices.flatMap Options.Notice.report
  match result with
  | none => { status := 1, messages := notes ++ usage program, disk }
  | some o =>
    let exit := runWith o disk conditions
    { exit with messages := notes ++ exit.messages }

end Program

end Stencil
