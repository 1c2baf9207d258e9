import TapeMachine.Diagnostic.Basic
import TapeMachine.Text.Lines

/-!
# TapeMachine.Diagnostic.Report

Diagnostics with an excerpt of the source.

A positioned diagnostic is shown as its message, the place, the source line and a line of carets
under the stretch it is about:

```text
error: expected state id
 --> input.tm:1:7
  |
1 | state { }
  |       ^
```

The carets stay within the line that is shown, but there is always one. A report joins the
excerpts of all diagnostics of a program, in order, with a blank line between them; if one of the
messages cannot be worded, there is no report.
-/

namespace TapeMachine

namespace Diagnostic

/-- The number of carets under a stretch that starts at `column` of a line with `width` characters:
its length, as far as the line reaches, and at least one. -/
def caretCount (length : Int) (width column : Nat) : Nat :=
  (max 1 (min length ((width : Int) - column + 1))).toNat

/-- Some copies of a character. -/
def copies (count : Nat) (c : Char) : String :=
  String.ofList (List.replicate count c)

/-- The blank gutter beside the lines of an excerpt, as wide as a line number and a blank. -/
def gutter (line : Nat) : String :=
  copies ((toString line).length + 1) ' '

/-- The source line of an excerpt, behind its number. -/
def sourceLine (line : Nat) (text : Text) : String :=
  toString line ++ " | " ++ String.ofList text

/-- The carets of an excerpt, under the source line. -/
def caretLine (place : Position) (width : Nat) (length : Int) : String :=
  gutter place.line ++ "| " ++ copies (place.column - 1) ' '
    ++ copies (caretCount length width place.column) '^'

/-- The line that says where a stretch stands. -/
def placeLine (filename : String) (place : Position) : String :=
  gutter place.line ++ "--> " ++ filename ++ ":" ++ toString place.line ++ ":"
    ++ toString place.column

/-- One diagnostic with its excerpt. -/
def excerpt (diagnostic : Diagnostic) (index : LineIndex) (filename : String) :
    Except Template.Error String := do
  let message ← diagnostic.message
  match diagnostic.place with
  | none => return "error: " ++ message ++ "\n  --> " ++ filename
  | some span =>
    let place := index.position span.position
    let text := index.lineText place.line
    return "error: " ++ message ++ "\n"
      ++ placeLine filename place ++ "\n"
      ++ gutter place.line ++ "|\n"
      ++ sourceLine place.line text ++ "\n"
      ++ caretLine place text.length span.length

/-- The report on all diagnostics of a source. -/
def report (diagnostics : List Diagnostic) (source : Text) (filename : String) :
    Except Template.Error String :=
  let index := LineIndex.ofText source
  String.intercalate "\n\n" <$> diagnostics.mapM (·.excerpt index filename)

/-- There is always a caret. -/
theorem caretCount_pos (length : Int) (width column : Nat) :
    0 < caretCount length width column := by
  unfold caretCount
  omega

end Diagnostic

end TapeMachine
