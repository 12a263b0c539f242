import Stencil.Action
import Stencil.Value
import Stencil.Writer

/-!
# Sessions

A session is what all evaluations of a program share and none changes: the directory against which
paths are resolved, how deep templates may be nested, whether steps are shown, and the functions that
templates can call. What evaluations do change is in the world: a file that was read once keeps its content
for the session, whatever becomes of it on the disk.
-/

namespace Stencil

/-! ## Functions -/

/-- A function of the host: it sees its arguments and a state of its own, which it may change, and nothing
else. It is not given the session, so that it reads no files through it and calls no other function, and
what it does depends neither on the limit of the session nor on whether steps are shown. -/
abbrev HostFunction (σ : Type) := List Value → σ → Except Failure Value × σ

/-- What a function name can stand for. -/
inductive Function (σ : Type) where
  /-- The contents of files, in the order of the arguments. -/
  | load
  /-- The names and contents of the files in a directory. -/
  | loadDirectory
  /-- One of the arguments, drawn at random. -/
  | pick
  | host (f : HostFunction σ)

/-- The functions that templates can call, by name. -/
abbrev Registry (σ : Type) := Std.ExtTreeMap Bytes (Function σ)

/-- The functions that are always there. -/
def Registry.builtin (σ : Type) : Registry σ :=
  let functions : List (Bytes × Function σ) :=
    [(Bytes.ofString "load", .load), (Bytes.ofString "loadDir", .loadDirectory),
      (Bytes.ofString "random", .pick)]
  .ofList functions

structure Session (σ : Type) where
  /-- The directory that paths start from; empty for the working directory. -/
  base : Bytes := []
  /-- The depth of the most deeply nested template that is still evaluated. -/
  limit : Int := 5
  functions : Registry σ := .builtin σ
  /-- Are the steps of evaluations shown? -/
  debug : Bool := true

namespace Session

variable {σ : Type}

/-- Tells of a step. -/
abbrev note (s : Session σ) (step : Event.Step) : Action σ Unit := Action.tell (.step s.debug step)

def isFunction (s : Session σ) (name : Bytes) : Bool := s.functions.contains name

/-- A path as the session's files are found by it. -/
def resolve (s : Session σ) (path : Bytes) : Bytes := Path.resolve s.base path

/-! ## Files -/

/-- What a path is the path of. -/
def status (s : Session σ) (path : Bytes) : Action σ Disk.Status := do
  return (← Action.world).disk.status (s.resolve path)

/-- The content of a file: as it was when the file was first read, or as it is now. -/
def read (s : Session σ) (path : Bytes) : Action σ (Option Bytes) := do
  let path := s.resolve path
  let w ← Action.world
  match w.cache[path]? with
  | some content => return some content
  | none =>
    match w.disk.read path with
    | .ok content =>
      Action.remember path content
      return some content
    | .error event =>
      Action.tell event
      return none

/-- The names of the files in a directory, in byte order. -/
def list (s : Session σ) (path : Bytes) : Action σ (Option (List Bytes)) := do
  let path := s.resolve path
  match (← Action.world).disk.list path with
  | .ok names =>
    Action.tell (.listed path)
    return some names
  | .error event =>
    Action.tell event
    return none

/-- Creates a file with all directories that lead to it, and writes portions of bytes to it, of which every
call takes all that it is given. Tells whether the file could be created. -/
def create (s : Session σ) (path : Bytes) (portions : List Bytes) : Action σ Bool :=
  Action.onDisk fun disk =>
    let (channel, events) := Channel.create disk (s.resolve path)
    let (writers, more) := (Writers.single channel).writeAll 0 portions
    let (writers, last) := writers.dropAll
    (writers.channel.disk, events ++ more ++ last, channel.sink?.isSome)

end Session

/-! ## Calling functions -/

namespace Function

variable {σ : Type}

/-- The failure of a built-in function. -/
def failed (function detail : Bytes) : Failure :=
  { kind := .functionFailed, name := function, detail }

/-- The content of a file for a function that cannot go on without it. -/
def contentFor (function : Bytes) (s : Session σ) (path : Bytes) : Action σ Bytes := do
  match ← s.read path with
  | some content => return content
  | none => Action.fail (failed function (Bytes.ofString "can't read " ++ path))

/-- Texts with a blank line between each two. -/
def paragraphs (texts : List Bytes) : Value :=
  .text (List.intercalate [Ascii.newline, Ascii.newline] texts)

/-- The contents of the named files. -/
def loadFiles (s : Session σ) (arguments : List Value) : Action σ Value := do
  let name := Bytes.ofString "load"
  if arguments.isEmpty then
    Action.fail (failed name (Bytes.ofString "load needs at least one path"))
  else
    let contents ← arguments.mapM fun argument => do
      let path := argument.write
      if (← s.status path) = .directory then
        Action.fail (failed name (path ++ Bytes.ofString " is a directory, use loadDir"))
      else contentFor name s path
    return paragraphs contents

/-- The files in a directory, each under its own name, or those whose names end in an extension. -/
def loadFrom (s : Session σ) (directory extension : Bytes) : Action σ Value := do
  let name := Bytes.ofString "loadDir"
  match ← s.list directory with
  | none => Action.fail (failed name (Bytes.ofString "can't list " ++ directory))
  | some files =>
    let entries ← (files.filter (extension.isSuffixOf ·)).mapM fun file => do
      let content ← contentFor name s (directory ++ Ascii.slash :: file)
      return file ++ Ascii.newline :: content
    return paragraphs entries

/-- Calls a function. -/
def call (s : Session σ) (arguments : List Value) : Function σ → Action σ Value
  | load => loadFiles s arguments
  | loadDirectory =>
    match arguments with
    | [directory] => loadFrom s directory.write []
    | [directory, extension] => loadFrom s directory.write extension.write
    | _ =>
      Action.fail (failed (Bytes.ofString "loadDir")
        (Bytes.ofString "loadDir takes a directory and an optional extension"))
  | pick =>
    if arguments.isEmpty then
      Action.fail (failed (Bytes.ofString "random")
        (Bytes.ofString "random needs something to pick from"))
    else do
      let n ← Action.draw
      return arguments.getD (n % arguments.length) default
  | host f => Action.onHost (f arguments)

end Function

end Stencil
