import Stencil.Bytes

/-!
# Paths

Paths are joined with exactly one slash between them where neither brings one; an empty path adds
nothing. A path that begins with a slash is absolute and is not joined to a base directory.
-/

namespace Stencil.Path

open Ascii

def isAbsolute (path : Bytes) : Bool := path.head? = some slash

/-- Two paths, one after the other. -/
def join (a b : Bytes) : Bytes :=
  if a.isEmpty then b
  else if b.isEmpty then a
  else if a.getLast? = some slash ∧ b.head? = some slash then a.dropLast ++ b
  else if a.getLast? = some slash ∨ b.head? = some slash then a ++ b
  else a ++ slash :: b

/-- A path as seen from a base directory. -/
def resolve (base path : Bytes) : Bytes := if isAbsolute path then path else join base path

/-- What stands between the slashes of a path. -/
def segments : Bytes → List Bytes
  | [] => [[]]
  | b :: rest =>
    if b = slash then [] :: segments rest
    else
      match segments rest with
      | [] => [[b]]
      | s :: more => (b :: s) :: more

/-- The names that a path goes through. -/
def names (path : Bytes) : List Bytes := (segments path).filter (!·.isEmpty)

/-- What stands in front of each slash of a path, the first byte apart: the directories that have to
be there for the path to be a file. -/
def parents (path : Bytes) : List Bytes := go [] path
where
  go (before : Bytes) : Bytes → List Bytes
    | [] => []
    | b :: rest =>
      if b = slash ∧ !before.isEmpty then before :: go (before ++ [b]) rest
      else go (before ++ [b]) rest

end Stencil.Path
