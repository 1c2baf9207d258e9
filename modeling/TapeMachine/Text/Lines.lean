import TapeMachine.Text.Basic

/-!
# TapeMachine.Text.Lines

Lines and columns of a text.

A `LineIndex` holds a text together with the table of the offsets at which its lines start; lines
end at line feeds and nothing else. `LineIndex.position` finds the line and the column of an offset
in that table, `LineIndex.lineText` cuts one line out of the text.

Design points:

* Offsets that come from outside may be negative or past the end, so `position` takes an integer and
  clamps it.
* Lines and columns are counted from one, offsets from zero.
-/

namespace TapeMachine

/-- A place in a text: line and column count from one, the offset from zero. -/
structure Position where
  /-- The line, counted from one. -/
  line : Nat
  /-- The column within the line, counted from one. -/
  column : Nat
  /-- The number of characters before the place. -/
  offset : Nat
deriving Repr, DecidableEq

/-- A text with the offsets at which its lines start. -/
structure LineIndex where
  /-- The text. -/
  text : Text
  /-- The length of the text. -/
  size : Nat
  /-- The offset of the first character of each line, in order. -/
  starts : List Nat
deriving Repr, DecidableEq

namespace LineIndex

/-- The starts of the lines after the first, for a text whose first character has the given
offset: one just after each line feed. -/
def startsFrom (offset : Nat) : Text → List Nat
  | [] => []
  | c :: rest =>
    if c == '\n' then (offset + 1) :: startsFrom (offset + 1) rest
    else startsFrom (offset + 1) rest

/-- The index of a text. -/
def ofText (text : Text) : LineIndex :=
  { text, size := text.length, starts := 0 :: startsFrom 0 text }

/-- The place of an offset, which is first clamped to the text: the line is the last one that
starts at or before it. -/
def position (index : LineIndex) (offset : Int) : Position :=
  let offset := min offset.toNat index.size
  let reached := index.starts.takeWhile (· ≤ offset)
  { line := reached.length
    column := offset - reached.getLast?.getD 0 + 1
    offset }

/-- The text of a line without its line feed and without the carriage returns before that; empty
for a line that does not exist. -/
def lineText (index : LineIndex) (line : Int) : Text :=
  if line < 1 then []
  else
    match index.starts.drop (line.toNat - 1) with
    | [] => []
    | start :: later =>
      let stop := later.head?.getD index.size
      let whole := (index.text.drop start).take (stop - start)
      Text.dropEndWhile (· == '\r') (Text.dropEndWhile (· == '\n') whole)

@[simp] theorem ofText_text (text : Text) : (ofText text).text = text := rfl

@[simp] theorem ofText_size (text : Text) : (ofText text).size = text.length := rfl

/-- A clamped offset never lies past the end of the text. -/
theorem position_offset_le (index : LineIndex) (offset : Int) :
    (index.position offset).offset ≤ index.size :=
  Nat.min_le_right _ _

end LineIndex

end TapeMachine
