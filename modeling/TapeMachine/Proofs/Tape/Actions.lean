import TapeMachine.Proofs.Tape.Ideal

/-!
# TapeMachine.Proofs.Tape.Actions

A padded tape cannot be told from one without ends.

Writes and moves are done to a `Tape` and to the ideal tape of the same content, in the same order.
What can be seen of the two on the way is the same: what each write returns, and the symbol under
the head after each action. So the margin, which only the row knows of, cannot be seen either.

* `Tape.Action` — a write or a move. A write returns a symbol: on a row the one that `Tape.replace`
  gives, on the ideal tape the one under the head.
* `Tape.Action.observations` — what is seen of a tape while some actions take place, for tapes of
  either sort.
* `Tape.shows_after` — the row shows the ideal tape, whatever was done to both.
* `Tape.content_eq_of_shows` — two rows that show one ideal tape have the same content. Cells may
  hold any strings here, so the content is not what the ideal tape spells, and the rows are compared
  with each other instead: they differ in blank cells at their ends.
-/

namespace TapeMachine

/-- What can be done to a tape. -/
inductive Tape.Action where
  /-- Writes a symbol under the head. -/
  | write (symbol : String)
  /-- Moves the head one cell. -/
  | move (direction : Direction)
deriving Repr, DecidableEq

/-- What is seen of a tape while some actions take place: what each of them returns, and the symbol
under the head when it is done. -/
def Tape.Action.observations {α : Type} (current : α → String)
    (perform : α → Action → Option String × α) (tape : α) :
    List Action → List (Option String × String)
  | [] => []
  | action :: rest =>
    let done := perform tape action
    (done.1, current done.2) :: observations current perform done.2 rest

/-- Tapes of two sorts that return the same, show the same and keep doing so cannot be told
apart. -/
theorem Tape.Action.observations_eq {α β : Type} {current : α → String} {current' : β → String}
    {perform : α → Action → Option String × α} {perform' : β → Action → Option String × β}
    {R : α → β → Prop} (hcurrent : ∀ tape other, R tape other → current tape = current' other)
    (hperform : ∀ tape other action, R tape other →
      (perform tape action).1 = (perform' other action).1 ∧
        R (perform tape action).2 (perform' other action).2)
    {tape : α} {other : β} (h : R tape other) (actions : List Action) :
    observations current perform tape actions = observations current' perform' other actions := by
  induction actions generalizing tape other with
  | nil => rfl
  | cons action rest ih =>
    obtain ⟨hreturned, hnext⟩ := hperform tape other action h
    simp only [observations]
    rw [hreturned, hcurrent _ _ hnext, ih hnext]

/-! ### Both sorts of tapes -/

namespace IdealTape

/-- An action: what it returns, and the tape after it. A write returns the symbol under the head. -/
def perform (ideal : IdealTape) : Tape.Action → Option String × IdealTape
  | .write symbol => (some ideal.current, ideal.write symbol)
  | .move direction => (none, ideal.move direction)

/-- The tape after an action. -/
def act (ideal : IdealTape) (action : Tape.Action) : IdealTape :=
  (ideal.perform action).2

/-- The tape after some actions. -/
def after (ideal : IdealTape) (actions : List Tape.Action) : IdealTape :=
  actions.foldl act ideal

/-- What is seen of the tape while some actions take place. -/
def observations (ideal : IdealTape) (actions : List Tape.Action) :
    List (Option String × String) :=
  Tape.Action.observations current perform ideal actions

end IdealTape

namespace Tape

/-- An action: what it returns, and the tape after it. -/
def perform (tape : Tape) : Action → Option String × Tape
  | .write symbol =>
    let replaced := tape.replace symbol
    (some replaced.1, replaced.2)
  | .move direction => (none, tape.move direction)

/-- The tape after an action. -/
def act (tape : Tape) (action : Action) : Tape :=
  (tape.perform action).2

/-- The tape after some actions. -/
def after (tape : Tape) (actions : List Action) : Tape :=
  actions.foldl act tape

/-- What is seen of the tape while some actions take place. -/
def observations (tape : Tape) (actions : List Action) : List (Option String × String) :=
  Action.observations head perform tape actions

theorem after_concat (tape : Tape) (actions : List Action) (action : Action) :
    tape.after (actions ++ [action]) = (tape.after actions).act action := by
  rw [after, List.foldl_append]
  rfl

@[simp] theorem margin_act (tape : Tape) (action : Action) :
    (tape.act action).margin = tape.margin := by
  cases action with
  | write symbol => rfl
  | move direction => exact tape.margin_move direction

@[simp] theorem margin_after (tape : Tape) (actions : List Action) :
    (tape.after actions).margin = tape.margin := by
  induction actions generalizing tape with
  | nil => rfl
  | cons action rest ih => exact (ih (tape.act action)).trans (tape.margin_act action)

variable {tape other : Tape} {ideal : IdealTape}

/-- An action does the same to a row and to the tape it shows. -/
theorem Shows.act (h : tape.Shows ideal) (action : Action) :
    (tape.act action).Shows (ideal.act action) := by
  cases action with
  | write symbol => exact h.write symbol
  | move direction => exact h.move direction

theorem Shows.after (h : tape.Shows ideal) (actions : List Action) :
    (tape.after actions).Shows (ideal.after actions) := by
  induction actions generalizing tape ideal with
  | nil => exact h
  | cons action rest ih => exact ih (h.act action)

/-- A write replaces the symbol that is under the ideal head. -/
theorem Shows.replace (h : tape.Shows ideal) (symbol : String) :
    (tape.replace symbol).1 = ideal.current := by
  rw [replace_fst, h.current]

theorem Shows.perform (h : tape.Shows ideal) (action : Action) :
    (tape.perform action).1 = (ideal.perform action).1 := by
  cases action with
  | write symbol => exact congrArg some (h.replace symbol)
  | move direction => rfl

theorem Shows.observations (h : tape.Shows ideal) (actions : List Action) :
    tape.observations actions = ideal.observations actions :=
  Action.observations_eq (R := Shows) (fun _ _ h => h.current.symm)
    (fun _ _ action h => ⟨h.perform action, h.act action⟩) h actions

/-- Whatever is done to a new tape and to the ideal one of the same content, the row goes on to show
the ideal tape. -/
theorem shows_after (margin : Margin) (content : Text) (actions : List Action) :
    ((ofText margin content).after actions).Shows ((IdealTape.ofText content).after actions) :=
  (shows_ofText margin content).after actions

/-! ### The content of a row -/

/-- Two sides with the same symbols differ in blanks at their far ends. -/
theorem exists_append_blanks_eq {side opposite : List String}
    (h : ∀ n, side.getD n blank = opposite.getD n blank) :
    ∃ count more, side ++ blanks count = opposite ++ blanks more := by
  refine ⟨opposite.length, side.length, List.ext_getElem ?_ fun n hside hopposite => ?_⟩
  · simp only [blanks, List.length_append, List.length_replicate]
    omega
  · have hsame := h n
    rwa [← getD_append_blanks side opposite.length, ← getD_append_blanks opposite side.length,
      List.getD_eq_getElem _ _ hside, List.getD_eq_getElem _ _ hopposite] at hsame

/-- Blank cells at the ends of a row do not belong to its content. -/
theorem trim_append_blanks (cells : List String) (before behind : Nat) :
    Text.trim (· == ' ') ((blanks before ++ cells ++ blanks behind).flatMap String.toList) =
      Text.trim (· == ' ') (cells.flatMap String.toList) := by
  have hblank : ∀ count, ∀ c ∈ (blanks count).flatMap String.toList, (c == ' ') = true := by
    intro count c hc
    obtain ⟨cell, hcell, hmem⟩ := List.mem_flatMap.mp hc
    rw [List.eq_of_mem_replicate hcell] at hmem
    rw [List.mem_singleton.mp hmem]
    rfl
  rw [List.flatMap_append, List.flatMap_append]
  exact Text.trim_append_of_forall (hblank before) (hblank behind) _

/-- Two rows that show one ideal tape have the same content. -/
theorem content_eq_of_shows (h : tape.Shows ideal) (hother : other.Shows ideal) :
    tape.snapshot.content = other.snapshot.content := by
  have hsymbol : ∀ offset, tape.symbolAt offset = other.symbolAt offset := by
    intro offset
    rw [← shows_iff.mp h, ← shows_iff.mp hother]
  have hhead : tape.head = other.head := hsymbol 0
  obtain ⟨before, before', hleft⟩ :=
    exists_append_blanks_eq fun n => hsymbol (.negSucc n)
  obtain ⟨behind, behind', hright⟩ :=
    exists_append_blanks_eq fun n => hsymbol (.ofNat (n + 1))
  -- with as many blanks as it takes, the two rows are the same
  have hcells : blanks before ++ tape.cells ++ blanks behind =
      blanks before' ++ other.cells ++ blanks behind' := by
    have hreverse := congrArg List.reverse hleft
    simp only [List.reverse_append, blanks, List.reverse_replicate] at hreverse
    simp only [cells, blanks, ← List.append_assoc, hreverse, hhead]
    rw [List.append_assoc _ (_ :: _), List.append_assoc _ (_ :: _), List.cons_append,
      List.cons_append]
    exact congrArg (_ ++ other.head :: ·) hright
  show Text.trim (· == ' ') (tape.cells.flatMap String.toList) =
    Text.trim (· == ' ') (other.cells.flatMap String.toList)
  rw [← trim_append_blanks tape.cells before behind, hcells, trim_append_blanks]

/-- Whatever is written on a padded tape and however its head moves, it stands for the tape without
ends: the row shows it, the head reads and a write replaces what is under the ideal head, all that
is seen on the way is the same, and none of it depends on the margin. -/
theorem after_faithful (margin : Margin) (content : Text) (actions : List Action) :
    ((ofText margin content).after actions).Shows ((IdealTape.ofText content).after actions) ∧
    ((ofText margin content).after actions).head =
      ((IdealTape.ofText content).after actions).current ∧
    (∀ symbol, (((ofText margin content).after actions).replace symbol).1 =
      ((IdealTape.ofText content).after actions).current) ∧
    (ofText margin content).observations actions =
      (IdealTape.ofText content).observations actions ∧
    ∀ other : Margin,
      (ofText other content).observations actions =
        (ofText margin content).observations actions ∧
      ((ofText other content).after actions).snapshot.content =
        ((ofText margin content).after actions).snapshot.content := by
  have hshows := shows_after margin content actions
  have hseen := (shows_ofText margin content).observations actions
  refine ⟨hshows, hshows.current.symm, hshows.replace, hseen, fun other => ⟨?_, ?_⟩⟩
  · rw [hseen, (shows_ofText other content).observations]
  · exact content_eq_of_shows (shows_after other content actions) hshows

end Tape

end TapeMachine
