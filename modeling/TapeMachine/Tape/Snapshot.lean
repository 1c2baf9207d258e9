import TapeMachine.Tape.Basic

/-!
# TapeMachine.Tape.Snapshot

A tape at one moment, as one text.

A snapshot joins all cells and keeps the pointer. Where every cell holds one character, the
pointer is the index of the head in the text; a snapshot that was made by hand may have any
pointer, and one below zero counts from the end.
-/

namespace TapeMachine

/-- The cells of a tape as one text, and a pointer into it. -/
structure Snapshot where
  /-- All cells, joined. -/
  cells : Text
  /-- The index of the head. -/
  pointer : Int
deriving Repr, DecidableEq

namespace Snapshot

/-- The character at the pointer, if there is one. A negative pointer counts from the end. -/
def current? (snapshot : Snapshot) : Option Char :=
  let index :=
    if snapshot.pointer < 0 then snapshot.pointer + snapshot.cells.length else snapshot.pointer
  if index < 0 then none else snapshot.cells[index.toNat]?

/-- The cells without the blanks at both ends. -/
def content (snapshot : Snapshot) : Text :=
  Text.trim (· == ' ') snapshot.cells

end Snapshot

/-- The tape as one text. -/
def Tape.snapshot (tape : Tape) : Snapshot :=
  { cells := tape.cells.flatMap String.toList, pointer := (tape.pointer : Nat) }

end TapeMachine
