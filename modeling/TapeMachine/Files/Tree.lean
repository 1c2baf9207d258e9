import TapeMachine.Files.Basic

/-!
# TapeMachine.Files.Tree

A directory held in memory.

A tree lists what is in a directory and below it. `Tree.files` is what a command sees that runs in
that directory; outside of it there are directories but no files.
-/

namespace TapeMachine.Files

/-- A directory with all that is below it, by the parts of the paths. -/
abbrev Tree := List (List String × Node)

/-- The time of change of a directory for which none is known. -/
def unknownTime : Time := 1

namespace Tree

/-- What is at some parts, none of which is a double point. Directories on the way to an entry are
there without being listed. -/
def node? (tree : Tree) (parts : List String) : Option Node :=
  if parts.isEmpty then some (.directory unknownTime)
  else
    match tree.lookup parts with
    | some node => some node
    | none =>
      if tree.any fun entry => parts.isPrefixOf entry.1 then some (.directory unknownTime)
      else none

/-- Puts something at some parts, in place of what is there. -/
def set (tree : Tree) (parts : List String) (node : Node) : Tree :=
  (parts, node) :: tree.filter (·.1 != parts)

/-- Takes away what is at some parts. -/
def erase (tree : Tree) (parts : List String) : Tree :=
  tree.filter (·.1 != parts)

/-- Whether a part of a path is longer than any name, which has 255 bytes at most. -/
def isTooLong (part : String) : Bool :=
  part.utf8ByteSize > 255

/-- What is at a path outside of the directory: directories only, and none that can be named. -/
def outside : List String → Except FileError Node
  | [] => .ok (.directory unknownTime)
  | part :: parts =>
    if part == ".." then outside parts
    else if isTooLong part then .error .nameTooLong
    else .error .notFound

/-- Follows the parts of a path from a directory, which is given by its own parts. -/
def follow (tree : Tree) (place : List String) : List String → Except FileError Node
  | [] => .ok (.directory unknownTime)
  | part :: parts =>
    if part == ".." then
      if place.isEmpty then outside parts else follow tree place.dropLast parts
    else if isTooLong part then .error .nameTooLong
    else
      match tree.node? (place ++ [part]) with
      | none => .error .notFound
      | some (.directory _) => follow tree (place ++ [part]) parts
      | some (.file bytes modified) =>
        if parts.isEmpty then .ok (.file bytes modified) else .error .notDirectory

/-- What is at a path. A path has 4095 bytes at most. -/
def find (tree : Tree) (path : Path) : Except FileError Node :=
  if path.parts.any fun part => part.toList.contains '\x00' then .error .nullCharacter
  else if path.toString.utf8ByteSize > 4095 then .error .nameTooLong
  else if path.root = .here then tree.follow [] path.parts
  else outside path.parts

/-- What a command sees that runs in the directory. -/
def files (tree : Tree) : Files :=
  Files.ofNodes tree.find

end Tree

end TapeMachine.Files
