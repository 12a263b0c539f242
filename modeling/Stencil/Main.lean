import Stencil.Program

/-!
# The command line

Runs the program on the files of the machine. A run sees only what is on the disk that it is given,
and that begins with no more than the places that the command line names. What a run looks for in
vain, or lists, is brought onto the disk and the run is repeated, which changes nothing but what it
sees, since the same numbers are drawn again; the first run that asks for nothing new is the one that
counts. What it has changed on its disk is then changed on the machine. No document in JSON is accepted.
-/

namespace Stencil.Machine

/-- The text of a path. Paths that are not in UTF-8 have none, and nothing is found under them. -/
def nameOf? (path : Bytes) : Option String := String.fromUTF8? ⟨path.untilNul.toArray⟩

/-- The disk with what stands under a path on the machine, if it is anything that can be read. -/
def bring (disk : Disk) (path : Bytes) : IO Disk := do
  let some name := nameOf? path | return disk
  let file := (← IO.currentDir) / name
  if ← file.isDir then return disk.putDirectory path
  else
    try return disk.putFile path (← IO.FS.readBinFile file).toList
    catch _ => return disk

/-- The disk with the directories that lead to a path, or what stands in their place, and with what
stands under the path itself. -/
def place (disk : Disk) (path : Bytes) : IO Disk :=
  (Path.parents path ++ [path]).foldlM
    (fun disk path => if disk.status path = .missing then bring disk path else return disk) disk

/-- The disk with a path placed on it and, if that is a directory, with the files that it holds. -/
def fetch (disk : Disk) (path : Bytes) : IO Disk := do
  let disk ← place disk path
  let some name := nameOf? path | return disk
  let directory := (← IO.currentDir) / name
  if path.isEmpty || !(← directory.isDir) then return disk
  let mut disk := disk
  for entry in ← directory.readDir do
    if !(← entry.path.isDir) then
      disk ← bring disk (Path.join path (Bytes.ofString entry.fileName))
  return disk

/-- Runs until nothing is asked for that was not fetched before. Returns the disk of the last run and
how that run ended. -/
partial def run (words : List Bytes) (disk : Disk) (seed : Nat) (fetched : List Bytes) :
    IO (Disk × Program.Exit) := do
  let draws (n : Nat) : Nat := (stdNext (mkStdGen (seed + n))).1
  let exit := Program.run (Bytes.ofString "stencil") words disk { draws }
  match exit.asked.filter (!fetched.contains ·) with
  | [] => return (disk, exit)
  | more => run words (← more.foldlM fetch disk) seed (more ++ fetched)

/-- Makes what is at a place of the disk on the machine. -/
def store (location : Location) (node : Node) : IO Unit := do
  let some name := nameOf? (location.flatMap (Ascii.slash :: ·)) | return
  match node with
  | .directory => IO.FS.createDirAll name
  | .file content => IO.FS.writeBinFile name ⟨content.toArray⟩
  | .device _ => return

/-- Runs the program with these words, prints what it printed, and changes the machine as it changed
its disk. -/
def runWords (words : List String) : IO UInt32 := do
  let here := Bytes.ofString (← IO.currentDir).toString
  let start := { Disk.empty.putDirectory here with working := Path.names here }
  let words := words.map Bytes.ofString
  let seed ← IO.rand 0 0x7fffffff
  let (disk, exit) ← run words (← words.foldlM place start) seed []
  (← IO.getStdout).write ⟨exit.printed.toArray⟩
  for (location, node) in exit.disk.toList do
    if disk.node? location ≠ some node then store location node
  return exit.status.toUInt32

end Stencil.Machine

/-- The command line. -/
def main (words : List String) : IO UInt32 := Stencil.Machine.runWords words
