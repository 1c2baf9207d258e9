import TapeMachine.Automaton.Basic
import TapeMachine.Text.Basic

/-!
# TapeMachine.Tape.Basic

The tape: a row of cells that grows at both ends, with a head on one of them.

A tape keeps at least `margin` cells on either side of the head. It starts with its content, the
head on the first character, and blank margins around; a move that leaves too few cells ahead adds
one blank at that end. Cells are never taken away, so the row is a record of how far the head
went.

Design points:

* The tape is split at the head: the cells to the left are kept nearest first, so that writing and
  moving touch the ends of lists only. `cells` is the row as a whole and `pointer` the index of
  the head in it.
* A cell holds a string. Reading a text puts one character in each, but an automaton may write any
  symbol.
* The margin is a `Margin`, which is positive. So there is always a cell to move to, whatever was
  done to the tape before (`Tape.Spread.margin_le`).
-/

namespace TapeMachine

/-- The number of cells kept on either side of the head, at least one. -/
structure Margin where
  /-- The number of cells. -/
  width : Nat
  /-- There is at least one. -/
  positive : 0 < width
deriving Repr, DecidableEq

namespace Margin

/-- The margin of a given width, unless that is below one. -/
def ofInt? (width : Int) : Option Margin :=
  if h : 1 ≤ width then some { width := width.toNat, positive := by omega } else none

/-- The margin of a tape, unless another is asked for. -/
def default : Margin :=
  { width := 2, positive := by decide }

theorem ofInt?_eq_none_iff (width : Int) : ofInt? width = none ↔ width < 1 := by
  unfold ofInt?
  split <;> simp <;> omega

theorem ofInt?_width {width : Int} {margin : Margin} (h : ofInt? width = some margin) :
    (margin.width : Int) = width := by
  unfold ofInt? at h
  split at h
  · obtain rfl := Option.some.inj h
    simp only
    omega
  · simp at h

end Margin

/-- A row of cells with a head on one of them. -/
structure Tape where
  /-- The number of cells to keep on either side of the head. -/
  margin : Margin
  /-- The cells to the left of the head, nearest first. -/
  left : List String
  /-- The cell under the head. -/
  head : String
  /-- The cells to the right of the head, nearest first. -/
  right : List String
deriving Repr, DecidableEq

namespace Tape

/-- The symbol of a cell on which nothing was written. -/
def blank : String := " "

/-- Some blank cells. -/
def blanks (count : Nat) : List String :=
  List.replicate count blank

/-- Adds a blank cell at the far end of a side that has fewer than `count` cells. -/
def pad (count : Nat) (side : List String) : List String :=
  if (side.drop (count - 1)).isEmpty then side ++ [blank] else side

/-- A tape with the given content, one character a cell, and the head on the first one. An empty
content is one blank cell. -/
def ofText (margin : Margin) (content : Text) : Tape :=
  let cells := content.map fun c => String.ofList [c]
  { margin
    left := blanks margin.width
    head := cells.head?.getD blank
    right := cells.tail ++ blanks margin.width }

/-- Writes a symbol under the head: the symbol that it replaces, and the tape. -/
def replace (tape : Tape) (symbol : String) : String × Tape :=
  (tape.head, { tape with head := symbol })

/-- The tape with a symbol written under the head. -/
def write (tape : Tape) (symbol : String) : Tape :=
  (tape.replace symbol).2

/-- Moves the head one cell to the left. -/
def moveLeft (tape : Tape) : Tape :=
  { tape with
    left := pad tape.margin.width tape.left.tail
    head := tape.left.head?.getD blank
    right := tape.head :: tape.right }

/-- Moves the head one cell to the right. -/
def moveRight (tape : Tape) : Tape :=
  { tape with
    left := tape.head :: tape.left
    head := tape.right.head?.getD blank
    right := pad tape.margin.width tape.right.tail }

/-- Moves the head one cell. -/
def move (tape : Tape) : Direction → Tape
  | .left => tape.moveLeft
  | .right => tape.moveRight

/-- All cells, from left to right. -/
def cells (tape : Tape) : List String :=
  tape.left.reverse ++ tape.head :: tape.right

/-- The index of the head in `cells`. -/
def pointer (tape : Tape) : Nat :=
  tape.left.length

/-! ### What the operations do to the row -/

theorem pad_eq {count : Nat} (h : 0 < count) (side : List String) :
    pad count side = if side.length < count then side ++ [blank] else side := by
  have hempty : (side.drop (count - 1)).isEmpty = decide (side.length < count) := by
    rw [Bool.eq_iff_iff]
    simp only [List.isEmpty_iff, List.drop_eq_nil_iff, decide_eq_true_eq]
    omega
  by_cases hlt : side.length < count <;> simp [pad, hempty, hlt]

@[simp] theorem cells_length (tape : Tape) :
    tape.cells.length = tape.left.length + 1 + tape.right.length := by
  simp only [cells, List.length_append, List.length_reverse, List.length_cons]
  omega

/-- The cell at the pointer is the cell under the head. -/
theorem cells_getElem?_pointer (tape : Tape) : tape.cells[tape.pointer]? = some tape.head := by
  simp [cells, pointer]

@[simp] theorem replace_fst (tape : Tape) (symbol : String) :
    (tape.replace symbol).1 = tape.head := rfl

@[simp] theorem replace_snd (tape : Tape) (symbol : String) :
    (tape.replace symbol).2 = tape.write symbol := rfl

@[simp] theorem pointer_write (tape : Tape) (symbol : String) :
    (tape.write symbol).pointer = tape.pointer := rfl

/-- Writing changes the cell at the pointer and no other. -/
theorem cells_write (tape : Tape) (symbol : String) :
    (tape.write symbol).cells = tape.cells.set tape.pointer symbol := by
  simp [cells, write, replace, pointer]

@[simp] theorem margin_write (tape : Tape) (symbol : String) :
    (tape.write symbol).margin = tape.margin := rfl

@[simp] theorem margin_move (tape : Tape) (direction : Direction) :
    (tape.move direction).margin = tape.margin := by
  cases direction <;> rfl

end Tape

end TapeMachine
