import Stencil.Console
import Stencil.Value

/-!
# Events

What happens while templates are rendered and files are used, in order. Some events are reported on
the console, the steps of an evaluation are reported where they are shown, and calls of functions and
listings of directories are not reported at all.
-/

namespace Stencil

/-- A step of an evaluation. -/
inductive Event.Step where
  /-- A template is about to be read. -/
  | reading (depth : Int) (template : Bytes)
  /-- The definitions of a template are bound; so many variables are in scope. -/
  | bound (count : Nat) (depth : Int)
  /-- A slot is resolved to a variable of this kind. -/
  | resolved (name : Bytes) (kind : Kind)
  /-- A template is passed through because it is nested too deep. -/
  | passedThrough (depth limit : Int)
  /-- The caller has set a variable. -/
  | given (name : Bytes) (v : Variable)
  deriving DecidableEq, Repr

inductive Event where
  /-- A file cannot be opened for reading. -/
  | cannotOpen (path : Bytes)
  /-- Something that is open, a directory, has no content to load. -/
  | cannotLoad (path : Bytes)
  | cannotList (path : Bytes)
  | cannotMakeDirectory (path : Bytes)
  /-- A file stands where a directory is needed. -/
  | notDirectory (path : Bytes)
  /-- A file cannot be opened for writing. -/
  | cannotCreate (path : Bytes)
  /-- So many bytes were refused where they should have been written. -/
  | lost (count : Nat)
  /-- A step of an evaluation that is asked to show its steps, or of one that is not. -/
  | step (shown : Bool) (s : Stencil.Event.Step)
  /-- A function is called. -/
  | called (name : Bytes) (arguments : List Value)
  /-- A directory is listed. -/
  | listed (path : Bytes)
  deriving DecidableEq, Repr

namespace Event

open Console

/-- The line that reports a step. -/
def Step.report : Step → Bytes
  | .reading depth template => line .debug
      [.words "Parsing template at depth ", .quote (Bytes.ofInt depth), .words ":\n", .quote template]
  | .bound count depth => line .debug
      [.words "Bound ", .quote (Bytes.ofNat count), .words " variables at depth ",
        .quote (Bytes.ofInt depth)]
  | .resolved name kind => line .debug
      [.words "Slot ", .quote name, .words " resolves to a ", .quote kind.write, .words " variable"]
  | .passedThrough depth limit => line .debug
      [.words "Depth ", .quote (Bytes.ofInt depth), .words " is past the limit of ",
        .quote (Bytes.ofInt limit), .words ", passing the template through unevaluated"]
  | .given name v => line .debug
      [.words "Caller variable ", .quote name, .words " (", .quote v.kind.write, .words ") = ",
        .quote v.value.write]

/-- The line that reports an event, if it is reported. Where `debug` is not asked for, no step is. -/
def report? (debug : Bool) : Event → Option Bytes
  | cannotOpen path =>
    some (line .error [.words "Can't open ", .quote path, .words " for memory mapping!"])
  | cannotLoad path =>
    some (line .error [.words "Can't load ", .quote path, .words " for memory mapping!"])
  | cannotList path =>
    some (line .error [.words "Can't open directory ", .quote path, .words "!"])
  | cannotMakeDirectory path =>
    some (line .error [.words "Couldn't create ", .quote path, .words "!"])
  | notDirectory path =>
    some (line .error
      [.quote path,
        .words " exists and is not a directory. Aborting recursive mkdir operation."])
  | cannotCreate path =>
    some (line .error [.words "Couldn't open output file ", .quote path, .words "."])
  | lost count =>
    some (line .error
      [.words "Couldn't write output. ", .quote (Bytes.ofNat count), .words " bytes were lost."])
  | step shown s => if debug && shown then some s.report else none
  | called _ _ | listed _ => none

/-- What is reported of a row of events. -/
def reports (debug : Bool) (events : List Event) : Bytes :=
  (events.filterMap (report? debug)).flatten

/-- The path of a file that was looked for in vain, or of a directory that was listed. -/
def asked? : Event → Option Bytes
  | cannotOpen path | cannotLoad path | cannotList path | listed path => some path
  | _ => none

end Event

end Stencil
