import TapeMachine.Table

/-!
# TapeMachine.Automaton.Basic

Automata: named states, each a table of cases, one of them initial.

Design points:

* Symbols are strings and not characters. A program that compiles has symbols of one character
  only, but an automaton that was put together by hand may have empty or longer ones, and the
  machine runs it all the same.
* States and cases keep their order, which listings and printed programs show. `Automaton.same`
  compares two automata without it.
* The empty name in `initial` means that no state was marked as the initial one.
-/

namespace TapeMachine

/-- The way the head moves. -/
inductive Direction where
  /-- One cell to the left. -/
  | left
  /-- One cell to the right. -/
  | right
deriving Repr, DecidableEq

/-- The letter of a direction. -/
def Direction.letter : Direction → String
  | .left => "L"
  | .right => "R"

/-- What a state does at one symbol. -/
structure Case where
  /-- The symbol to write. -/
  replacement : String
  /-- The way to move. -/
  direction : Direction
  /-- The name of the next state. -/
  target : String
deriving Repr, DecidableEq

/-- A state: its cases by the symbol under the head. -/
abbrev State := Table Case

/-- A transition graph with an initial state. -/
structure Automaton where
  /-- The name of the initial state; empty if there is none. -/
  initial : String
  /-- The states by name. -/
  states : Table State
deriving Repr, DecidableEq

namespace Automaton

/-- The automaton without states. -/
def empty : Automaton :=
  { initial := "", states := [] }

/-- The state of a name. -/
def state? (automaton : Automaton) (name : String) : Option State :=
  automaton.states.lookup name

/-- The initial state, if the automaton has the state it names. -/
def initialState? (automaton : Automaton) : Option State :=
  automaton.state? automaton.initial

/-- The case of a state for a symbol. -/
def case? (automaton : Automaton) (name symbol : String) : Option Case :=
  (automaton.state? name).bind (·.lookup symbol)

/-- Whether two automata have the same initial state and the same cases in the same states, order
aside. -/
def same (left right : Automaton) : Bool :=
  left.initial == right.initial &&
    left.states.sameBy (Table.sameBy fun a b => decide (a = b)) right.states

@[simp] theorem case?_of_state?_none {automaton : Automaton} {name : String}
    (h : automaton.state? name = none) (symbol : String) : automaton.case? name symbol = none := by
  simp [case?, h]

end Automaton

end TapeMachine
