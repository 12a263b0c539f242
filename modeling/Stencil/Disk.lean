import Std.Data.ExtTreeMap
import Stencil.Event
import Stencil.Path

/-!
# Disks

What the file system holds: directories, files with their content, and two devices, one that takes
everything and one that takes nothing. A path is followed name by name, and every name but the last
has to be a directory (`Disk.find`). Operations that fail leave the disk as it was.

Left out are permission bits, links, pipes, sockets and other devices, and that a file system can be full
or read-only: whatever stands in its place can be opened, and where a directory or a file is to be made and
nothing stands in its way, it is made. That what is open can refuse bytes is said where they are written
(`Channel.write`).
-/

namespace Stencil

open Ascii

/-- A place on the disk: the names that lead to it from the root. -/
abbrev Location := List Bytes

/-- What takes whatever is written to it, and what takes nothing. Both are empty to read. -/
inductive Device where
  | null
  | full
  deriving DecidableEq, Repr

inductive Node where
  | directory
  | file (content : Bytes)
  | device (d : Device)
  deriving DecidableEq, Repr

structure Disk where
  /-- What is there, apart from the root, which is always a directory. -/
  nodes : Std.ExtTreeMap Location Node
  /-- The directory from which paths are followed that do not begin with a slash. -/
  working : Location

namespace Disk

/-- What stands at a place, if anything does. -/
def node? (d : Disk) (place : Location) : Option Node :=
  if place.isEmpty then some .directory else d.nodes[place]?

/-- Everything that is there, apart from the root, with the places. -/
def toList (d : Disk) : List (Location × Node) := d.nodes.toList

/-- The disk with something put at a place. -/
def set (d : Disk) (place : Location) (n : Node) : Disk := { d with nodes := d.nodes.insert place n }

/-! ## Following paths -/

/-- Where a path leads. -/
inductive Destination where
  | found (place : Location) (n : Node)
  /-- Nothing is there, but the directory it would be in. -/
  | vacant (place : Location)
  /-- A directory on the way is missing. -/
  | missing
  /-- Something on the way is no directory, or a name is too long. -/
  | barred

/-- The longest name of a file. -/
def nameMax : Nat := 255

/-- A path is shorter than this. -/
def pathMax : Nat := 4096

/-- Follows names from a place on. -/
def walk (d : Disk) (here : Location) : List Bytes → Destination
  | [] =>
    match d.node? here with
    | some n => .found here n
    | none => .missing
  | name :: rest =>
    if d.node? here ≠ some .directory then .barred
    else if name = [point] then d.walk here rest
    else if name = [point, point] then d.walk here.dropLast rest
    else if nameMax < name.length then .barred
    else if (d.node? (here ++ [name])).isSome then d.walk (here ++ [name]) rest
    else if rest.isEmpty then .vacant (here ++ [name])
    else .missing

/-- Follows a path, which ends at its first NUL byte. The empty path leads nowhere, and a slash at
the end asks for a directory. -/
def find (d : Disk) (path : Bytes) : Destination :=
  let path := path.untilNul
  if path.isEmpty then .missing
  else if pathMax ≤ path.length then .barred
  else
    match d.walk (if Path.isAbsolute path then [] else d.working) (Path.names path) with
    | .found place n =>
      if path.getLast? = some slash ∧ n ≠ .directory then .barred else .found place n
    | other => other

/-! ## Looking -/

/-- What a path is the path of. -/
inductive Status where
  | missing
  | directory
  | file
  | device
  /-- The path cannot be followed. -/
  | barred
  deriving DecidableEq, Repr

def status (d : Disk) (path : Bytes) : Status :=
  match d.find path with
  | .found _ .directory => .directory
  | .found _ (.file _) => .file
  | .found _ (.device _) => .device
  | .vacant _ | .missing => .missing
  | .barred => .barred

/-- The content of a file, or the event that it cannot be read. -/
def read (d : Disk) (path : Bytes) : Except Event Bytes :=
  match d.find path with
  | .found _ (.file content) => .ok content
  | .found _ (.device _) => .ok []
  | .found _ .directory => .error (.cannotLoad path)
  | .vacant _ | .missing | .barred => .error (.cannotOpen path)

/-- The names in a directory, in byte order. -/
def entries (d : Disk) (place : Location) : List Bytes :=
  d.nodes.keys.filterMap fun key => if key.dropLast = place then key.getLast? else none

/-- The names of the regular files in a directory, those with a leading point left out; or the event
that the directory cannot be listed. -/
def list (d : Disk) (path : Bytes) : Except Event (List Bytes) :=
  match d.find path with
  | .found place .directory =>
    .ok ((d.entries place).filter fun name =>
      name.head? ≠ some point ∧ d.status (Path.join path name) = .file)
  | _ => .error (.cannotList path)

/-! ## Changing -/

/-- The disk with one more directory. -/
def makeDirectory? (d : Disk) (path : Bytes) : Option Disk :=
  match d.find path with
  | .vacant place => some (d.set place .directory)
  | _ => none

/-- The disk with each of these directories made that is not there. Where something else stands in
its place the rest are not made. -/
def makeDirectories (d : Disk) : List Bytes → Disk × List Event
  | [] => (d, [])
  | path :: rest =>
    match d.status path with
    | .directory => d.makeDirectories rest
    | .file | .device => (d, [.notDirectory path])
    | .missing | .barred =>
      match d.makeDirectory? path with
      | some made => made.makeDirectories rest
      | none =>
        let (after, events) := d.makeDirectories rest
        (after, .cannotMakeDirectory path :: events)

/-- What is open for writing: a file, a device, or the standard output, which is open from the start and
stands nowhere on the disk. -/
inductive Sink where
  | file (place : Location)
  | device (d : Device)
  | standardOutput
  deriving DecidableEq, Repr

/-- Opens a file for writing. It is made if it is not there, and emptied if it is. -/
def create? (d : Disk) (path : Bytes) : Option (Disk × Sink) :=
  match d.find path with
  | .found place (.file _) => some (d.set place (.file []), .file place)
  | .found _ (.device dev) => some (d, .device dev)
  | .vacant place =>
    if path.untilNul.getLast? = some slash then none else some (d.set place (.file []), .file place)
  | _ => none

/-- The disk after what is open has taken bytes: a file keeps them, and nothing else does. -/
def append (d : Disk) (data : Bytes) : Sink → Disk
  | .file place =>
    match d.node? place with
    | some (.file content) => d.set place (.file (content ++ data))
    | _ => d
  | .device _ | .standardOutput => d

/-! ## Setting up -/

/-- The root, the devices, and an empty working directory. -/
def empty : Disk :=
  let dev := Bytes.ofString "dev"
  let work := Bytes.ofString "work"
  let nodes : List (Location × Node) :=
    [([dev], .directory), ([dev, Bytes.ofString "null"], .device .null),
      ([dev, Bytes.ofString "full"], .device .full), ([work], .directory)]
  { nodes := .ofList nodes, working := [work] }

/-- The place that a path names when nothing on the disk is looked at. -/
def locate (d : Disk) (path : Bytes) : Location :=
  let follow (here : Location) (name : Bytes) :=
    if name = [point] then here else if name = [point, point] then here.dropLast else here ++ [name]
  (Path.names path).foldl follow (if Path.isAbsolute path then [] else d.working)

/-- The disk with all directories that lead to a place. -/
def clear (d : Disk) (place : Location) : Disk :=
  (List.range' 1 (place.length - 1)).foldl (fun d n => d.set (place.take n) .directory) d

/-- The disk with a new file, and with the directories that lead to it. -/
def putFile (d : Disk) (path content : Bytes) : Disk :=
  (d.clear (d.locate path)).set (d.locate path) (.file content)

/-- The disk with a directory, and with the directories that lead to it. -/
def putDirectory (d : Disk) (path : Bytes) : Disk :=
  (d.clear (d.locate path)).set (d.locate path) .directory

/-- The disk without what a path names, and without what that contains. -/
def remove (d : Disk) (path : Bytes) : Disk :=
  let place := d.locate path
  { d with nodes := d.nodes.filter fun key _ => !place.isPrefixOf key }

end Disk

end Stencil
