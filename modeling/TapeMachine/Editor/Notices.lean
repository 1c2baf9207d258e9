import TapeMachine.Program.Basic
import TapeMachine.Text.Units

/-!
# TapeMachine.Editor.Notices

Diagnostics for an editor.

An editor counts lines and characters from zero, and characters in units that it agreed on. The
`Codec` of an editor turns counts of characters into counts of its units; it is given, and the one
of an encoding is `Encoding.codec`.

`Notice.ofText` compiles a document and gives one notice per diagnostic, in order. A notice about
the program as a whole stands at the very beginning. If one of the messages cannot be worded, then
there are no notices.
-/

namespace TapeMachine

/-- A place in a document. -/
structure Mark where
  /-- The line, counted from zero. -/
  line : Nat
  /-- How much of the line stands before the place, in characters or in the units of an editor. -/
  character : Nat
deriving Repr, DecidableEq

namespace Mark

/-- The beginning of a document. -/
def origin : Mark :=
  { line := 0, character := 0 }

/-- The mark of a position, in characters. -/
def ofPosition (position : Position) : Mark :=
  { line := position.line - 1, character := position.column - 1 }

end Mark

/-- How an editor counts. -/
structure Codec where
  /-- The mark in the units of the editor, given the lines of the document and the mark in
  characters. -/
  toUnits : List Text → Mark → Mark

/-- The codec that counts the code units of an encoding. -/
def Encoding.codec (encoding : Encoding) : Codec :=
  { toUnits := fun lines mark =>
      { mark with character := encoding.units ((lines[mark.line]?.getD []).take mark.character) } }

/-- What an editor is told about a document. -/
structure Notice where
  /-- Where the stretch in question starts. -/
  start : Mark
  /-- Where it ends. -/
  stop : Mark
  /-- What is wrong. -/
  message : String
deriving Repr, DecidableEq

namespace Notice

/-- The stretch of a diagnostic: at least one character, as far as the document reaches. -/
def range (codec : Codec) (index : LineIndex) (lines : List Text) : Option Span → Mark × Mark
  | none => (Mark.origin, Mark.origin)
  | some span =>
    let first := index.position span.position
    let last := index.position (span.position + max 1 span.length)
    (codec.toUnits lines (.ofPosition first), codec.toUnits lines (.ofPosition last))

/-- The notice of a diagnostic. -/
def ofDiagnostic (codec : Codec) (index : LineIndex) (lines : List Text)
    (diagnostic : Diagnostic) : Except Template.Error Notice :=
  let (start, stop) := range codec index lines diagnostic.place
  (fun message => { start, stop, message }) <$> diagnostic.message

/-- The notices on a document. -/
def ofText (codec : Codec) (source : Text) : Except Template.Error (List Notice) :=
  let index := LineIndex.ofText source
  let lines := source.splitOn '\n'
  (Compilation.ofText source).diagnostics.mapM (ofDiagnostic codec index lines)

end Notice

end TapeMachine
