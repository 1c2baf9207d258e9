/-!
# TapeMachine.Files.Path

Paths of files.

A path is read as its parts between slashes. Empty parts and single points say nothing and are
left out, so that `./a//b/` and `a/b` are the same path; double points are kept. The path without
parts is the directory one is in, written as a single point.
-/

namespace TapeMachine

/-- Where a path starts. -/
inductive Path.Root where
  /-- At the directory one is in. -/
  | here
  /-- At the root, one slash. -/
  | slash
  /-- At the root, exactly two slashes. -/
  | doubleSlash
deriving Repr, DecidableEq

/-- A path. -/
structure Path where
  /-- Where it starts. -/
  root : Path.Root
  /-- Its parts, outermost first. -/
  parts : List String
deriving Repr, DecidableEq

namespace Path

/-- The parts of a text between slashes. -/
def pieces (text : String) : List String :=
  (text.toList.splitOn '/').map String.ofList

/-- Where a path starts, by the slashes at its head. -/
def Root.ofString (text : String) : Root :=
  match (text.toList.takeWhile (· == '/')).length with
  | 0 => .here
  | 2 => .doubleSlash
  | _ => .slash

/-- How the start of a path is written. -/
def Root.toString : Root → String
  | .here => ""
  | .slash => "/"
  | .doubleSlash => "//"

/-- Reads a path. -/
def ofString (text : String) : Path :=
  { root := Root.ofString text
    parts := (pieces text).filter fun piece => piece != "" && piece != "." }

/-- Writes a path. -/
def toString (path : Path) : String :=
  let text := path.root.toString ++ String.intercalate "/" path.parts
  if text == "" then "." else text

/-- The directory that a path is in. -/
def parent (path : Path) : Path :=
  { path with parts := path.parts.dropLast }

/-- A path one part further. -/
def child (path : Path) (name : String) : Path :=
  { path with parts := path.parts ++ [name] }

@[simp] theorem parent_child (path : Path) (name : String) : (path.child name).parent = path := by
  simp [parent, child]

end Path

end TapeMachine
