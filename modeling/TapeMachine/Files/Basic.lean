import TapeMachine.Files.Path
import TapeMachine.Text.Quoted

/-!
# TapeMachine.Files.Basic

The files that a command sees.

A command only reads, so all it needs to know of the files is what they are at one moment: `Files`
answers three questions about a path. Files that change over time are a row of such views.

* `Time` — when a file was changed.
* `Files.ofNodes` — the answers, from what is at each path.
* `Files.readText` — a file as text. Bytes that are not UTF-8 are an error; a carriage return,
  alone or before a line feed, is read as a line feed.
-/

namespace TapeMachine

/-- Why a file cannot be read. -/
inductive FileError where
  /-- There is nothing at the path. -/
  | notFound
  /-- There is a directory at the path. -/
  | isDirectory
  /-- The path goes on behind a file. -/
  | notDirectory
  /-- The path, or a part of it, is longer than any that there can be. -/
  | nameTooLong
  /-- The path holds a character that no path may hold. -/
  | nullCharacter
deriving Repr, DecidableEq

/-- The text of an error about a path. -/
def FileError.message (path : Path) : FileError → String
  | .notFound => "[Errno 2] No such file or directory: " ++ quoted path.toString
  | .isDirectory => "[Errno 21] Is a directory: " ++ quoted path.toString
  | .notDirectory => "[Errno 20] Not a directory: " ++ quoted path.toString
  | .nameTooLong => "[Errno 36] File name too long: " ++ quoted path.toString
  | .nullCharacter => "embedded null byte"

/-- A time in seconds, which need not be whole ones. It may lie before the time from which they are
counted. -/
abbrev Time := Rat

/-- The files at one moment. -/
structure Files where
  /-- Whether there is a file at a path. -/
  isFile : Path → Except FileError Bool
  /-- The bytes of the file at a path. -/
  bytes : Path → Except FileError ByteArray
  /-- When the file at a path was last changed. -/
  modified : Path → Except FileError Time

/-- Reads a line feed for each line end, be it written with a carriage return or not. -/
def unifyLineEnds : Text → Text
  | '\r' :: '\n' :: rest => '\n' :: unifyLineEnds rest
  | '\r' :: rest => '\n' :: unifyLineEnds rest
  | c :: rest => c :: unifyLineEnds rest
  | [] => []

namespace Files

/-- What can be at a path. -/
inductive Node where
  /-- A file with its bytes and the time of its last change. -/
  | file (bytes : ByteArray) (modified : Time)
  /-- A directory with the time of its last change. -/
  | directory (modified : Time)

/-- The files at one moment, from what is at each path. There is no file at a path that leads
nowhere, but a path that is too long is refused. -/
def ofNodes (find : Path → Except FileError Node) : Files :=
  { isFile := fun path =>
      match find path with
      | .ok (.file _ _) => .ok true
      | .error .nameTooLong => .error .nameTooLong
      | _ => .ok false
    bytes := fun path =>
      match find path with
      | .ok (.file bytes _) => .ok bytes
      | .ok (.directory _) => .error .isDirectory
      | .error error => .error error
    modified := fun path =>
      match find path with
      | .ok (.file _ modified) => .ok modified
      | .ok (.directory modified) => .ok modified
      | .error error => .error error }

/-- Why there is no text at a path. -/
inductive TextError where
  /-- The file cannot be read. -/
  | file (error : FileError)
  /-- The file is no UTF-8. -/
  | notText
deriving Repr, DecidableEq

/-- The characters of a file, as they are. -/
def rawText (files : Files) (path : Path) : Except TextError Text :=
  match files.bytes path with
  | .error error => .error (.file error)
  | .ok bytes =>
    match String.fromUTF8? bytes with
    | some text => .ok text.toList
    | none => .error .notText

/-- A file as text. -/
def readText (files : Files) (path : Path) : Except TextError Text :=
  (files.rawText path).map unifyLineEnds

end Files

end TapeMachine
