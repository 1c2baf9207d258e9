import Mathlib.Data.List.Induction
import Mathlib.Order.Bounds.Basic
import TapeMachine.Proofs.Tape.Actions

/-!
# TapeMachine.Proofs.Tape.Growth

How far a padded tape grows.

A row of cells is as long as it has to be and no longer: it reaches from the lowest place that the
head was at to the highest one, or to the end of the content if that is further, and has one margin
at either end. On the margins nothing was ever written, since the head was never there.

* `Tape.displacement`, `Tape.reached` — where some actions take the head, and all places on the way.
* `Tape.Spread` — the row reaches between two places, with blank margins beyond. An action widens
  the stretch by the place that the head goes to (`Spread.act`), and writes do not matter to it.
-/

namespace TapeMachine

namespace Tape

/-! ### Where the head goes -/

/-- By how much an action changes the place of the head. -/
def Action.shift : Action → Int
  | .write _ => 0
  | .move .left => -1
  | .move .right => 1

/-- How far some actions take the head from where it starts. -/
def displacement (actions : List Action) : Int :=
  actions.foldl (fun place action => place + action.shift) 0

/-- The places that the head is at while some actions take place, the first one and the last
included. -/
def reached (actions : List Action) : Set Int :=
  {place | ∃ earlier, earlier <+: actions ∧ displacement earlier = place}

@[simp] theorem displacement_nil : displacement [] = 0 := rfl

@[simp] theorem displacement_concat (actions : List Action) (action : Action) :
    displacement (actions ++ [action]) = displacement actions + action.shift := by
  simp [displacement]

theorem reached_nil : reached [] = {0} := by
  ext place
  simp [reached, eq_comm]

theorem reached_concat (actions : List Action) (action : Action) :
    reached (actions ++ [action]) =
      insert (displacement actions + action.shift) (reached actions) := by
  ext place
  simp only [reached, List.prefix_concat_iff, or_and_right, exists_or, exists_eq_left,
    displacement_concat, Set.mem_ofPred_eq, Set.mem_insert_iff, eq_comm (a := place)]

/-! ### What the row reaches -/

/-- Between `low` and `high` the row has cells for the head to be at, which is at `place`, and
beyond them one blank margin at either end. -/
structure Spread (tape : Tape) (low place high : Int) : Prop where
  left : ∃ before : List String,
    tape.left = before ++ blanks tape.margin.width ∧ before.length = place - low
  right : ∃ behind : List String,
    tape.right = behind ++ blanks tape.margin.width ∧ behind.length = high - place

/-- A side loses the cell that the head moves to, but not a cell of its margin. -/
theorem pad_tail_append_blanks (margin : Margin) (side : List String) :
    pad margin.width (side ++ blanks margin.width).tail = side.tail ++ blanks margin.width := by
  rw [pad_eq margin.positive]
  cases side with
  | nil =>
    -- the margin itself is stepped on, and one blank makes up for it
    obtain ⟨width, hwidth⟩ := Nat.exists_eq_add_one.mpr margin.positive
    rw [hwidth]
    show (if (blanks width).length < width + 1 then blanks width ++ [blank] else _) = _
    rw [if_pos (by simp [blanks])]
    exact List.replicate_succ'.symm
  | cons cell side => simp [blanks]

theorem spread_ofText (margin : Margin) (content : Text) :
    (ofText margin content).Spread 0 0 (max (content.length : Int) 1 - 1) := by
  refine ⟨⟨[], rfl, rfl⟩, ⟨_, rfl, ?_⟩⟩
  rw [List.length_tail, List.length_map]
  omega

namespace Spread

variable {tape : Tape} {low place high : Int}

theorem bounds (h : tape.Spread low place high) : low ≤ place ∧ place ≤ high := by
  obtain ⟨⟨before, -, hbefore⟩, ⟨behind, -, hbehind⟩⟩ := h
  omega

/-- An action takes the head to another place, and the row reaches there, too. -/
theorem act (h : tape.Spread low place high) (action : Action) :
    (tape.act action).Spread (min (place + action.shift) low) (place + action.shift)
      (max (place + action.shift) high) := by
  obtain ⟨⟨before, hleft, hbefore⟩, ⟨behind, hright, hbehind⟩⟩ := h
  cases action with
  | write symbol =>
    refine ⟨⟨before, hleft, ?_⟩, ⟨behind, hright, ?_⟩⟩ <;> simp only [Action.shift] <;> omega
  | move direction =>
    cases direction with
    | left =>
      refine ⟨⟨before.tail, ?_, ?_⟩, ⟨tape.head :: behind, ?_, ?_⟩⟩
      · show pad tape.margin.width tape.left.tail = _
        rw [hleft]
        exact pad_tail_append_blanks tape.margin before
      · rw [List.length_tail, Action.shift]
        omega
      · show tape.head :: tape.right = _
        rw [hright]
        rfl
      · rw [List.length_cons, Action.shift]
        omega
    | right =>
      refine ⟨⟨tape.head :: before, ?_, ?_⟩, ⟨behind.tail, ?_, ?_⟩⟩
      · show tape.head :: tape.left = _
        rw [hleft]
        rfl
      · rw [List.length_cons, Action.shift]
        omega
      · show pad tape.margin.width tape.right.tail = _
        rw [hright]
        exact pad_tail_append_blanks tape.margin behind
      · rw [List.length_tail, Action.shift]
        omega

theorem pointer_eq (h : tape.Spread low place high) :
    (tape.pointer : Int) = tape.margin.width + place - low := by
  obtain ⟨before, hleft, hbefore⟩ := h.left
  rw [pointer, hleft, blanks, List.length_append, List.length_replicate]
  omega

theorem length_cells (h : tape.Spread low place high) :
    (tape.cells.length : Int) = 2 * tape.margin.width + high - low + 1 := by
  obtain ⟨⟨before, hleft, hbefore⟩, ⟨behind, hright, hbehind⟩⟩ := h
  rw [cells_length, hleft, hright, blanks, List.length_append, List.length_append,
    List.length_replicate]
  omega

/-- There is a margin on either side of the head. -/
theorem margin_le (h : tape.Spread low place high) :
    tape.margin.width ≤ tape.left.length ∧ tape.margin.width ≤ tape.right.length := by
  obtain ⟨⟨before, hleft, -⟩, ⟨behind, hright, -⟩⟩ := h
  rw [hleft, hright, List.length_append, List.length_append, blanks, List.length_replicate]
  omega

/-- The row starts and ends with its margins. -/
theorem exists_cells_eq (h : tape.Spread low place high) :
    ∃ middle, tape.cells = blanks tape.margin.width ++ middle ++ blanks tape.margin.width := by
  obtain ⟨⟨before, hleft, -⟩, ⟨behind, hright, -⟩⟩ := h
  refine ⟨before.reverse ++ tape.head :: behind, ?_⟩
  rw [cells, hleft, hright]
  simp [blanks]

theorem take_cells (h : tape.Spread low place high) :
    tape.cells.take tape.margin.width = blanks tape.margin.width := by
  obtain ⟨middle, hcells⟩ := h.exists_cells_eq
  rw [hcells, List.append_assoc]
  exact List.take_left' List.length_replicate

theorem drop_cells (h : tape.Spread low place high) :
    tape.cells.drop (tape.cells.length - tape.margin.width) = blanks tape.margin.width := by
  obtain ⟨middle, hcells⟩ := h.exists_cells_eq
  rw [hcells]
  refine List.drop_left' ?_
  simp only [blanks, List.length_append, List.length_replicate]
  omega

end Spread

/-- The row reaches from the lowest place that the head was at to the highest one, or to the end of
the content if that is further. -/
theorem exists_spread_after (margin : Margin) (content : Text) (actions : List Action) :
    ∃ low high : Int, IsLeast (reached actions) low ∧
      IsGreatest (insert (max (content.length : Int) 1 - 1) (reached actions)) high ∧
      ((ofText margin content).after actions).Spread low (displacement actions) high := by
  induction actions using List.reverseRecOn with
  | nil =>
    have hspread := spread_ofText margin content
    refine ⟨0, max (max (content.length : Int) 1 - 1) 0, ?_, ?_, ?_⟩
    · rw [reached_nil]
      exact isLeast_singleton
    · rw [reached_nil]
      exact IsGreatest.insert _ isGreatest_singleton
    · rw [max_eq_left hspread.bounds.2]
      exact hspread
  | append_singleton actions action ih =>
    obtain ⟨low, high, hlow, hhigh, hspread⟩ := ih
    rw [reached_concat, Set.insert_comm, after_concat, displacement_concat]
    exact ⟨_, _, hlow.insert _, hhigh.insert _, hspread.act action⟩

/-- Whatever is written on a padded tape and however its head moves, there is a margin on either
side of the head, both ends of the row are blank margins, and the row has exactly the cells from the
lowest place that the head was at to the highest one, or to the end of the content, between them. -/
theorem after_spread (margin : Margin) (content : Text) (actions : List Action) :
    ∃ low high : Int, IsLeast (reached actions) low ∧
      IsGreatest (insert (max (content.length : Int) 1 - 1) (reached actions)) high ∧
      let tape := (ofText margin content).after actions
      margin.width ≤ tape.pointer ∧ tape.pointer + margin.width < tape.cells.length ∧
      tape.cells.take margin.width = blanks margin.width ∧
      tape.cells.drop (tape.cells.length - margin.width) = blanks margin.width ∧
      (tape.pointer : Int) = margin.width + displacement actions - low ∧
      (tape.cells.length : Int) = 2 * margin.width + high - low + 1 := by
  obtain ⟨low, high, hlow, hhigh, hspread⟩ := exists_spread_after margin content actions
  have hmargin : ((ofText margin content).after actions).margin = margin := margin_after _ _
  have hmargins := hspread.margin_le
  have hpointer := hspread.pointer_eq
  have hlength := hspread.length_cells
  have htake := hspread.take_cells
  have hdrop := hspread.drop_cells
  rw [hmargin] at hmargins hpointer hlength htake hdrop
  refine ⟨low, high, hlow, hhigh, hmargins.1, ?_, htake, hdrop, hpointer, hlength⟩
  rw [cells_length, pointer]
  omega

-- two cells of content, and a walk one to the left and three to the right of where it starts
example :
    let tape := (ofText Margin.default "ab".toList).after
      [.move .left, .write "x", .move .right, .move .right, .move .right, .move .right]
    tape.cells = [" ", " ", "x", "a", "b", " ", " ", " ", " "] ∧ tape.pointer = 6 := by
  decide

end Tape

end TapeMachine
