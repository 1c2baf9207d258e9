import TapeMachine.Automaton.Basic
import TapeMachine.Text.Quoted

/-!
# TapeMachine.Automaton.Listing

Automata for inspection: the initial state, then each state with its cases, all in order. Symbols
are shown between quotes, since any character may be one.
-/

namespace TapeMachine.Automaton

/-- The line of a case. -/
def caseLine (symbol : String) (case : Case) : String :=
  "    " ++ quoted symbol ++ " -> " ++ quoted case.replacement ++ " " ++ case.direction.letter
    ++ " " ++ case.target ++ "\n"

/-- The lines of a state. -/
def stateLines (name : String) (state : State) : String :=
  "  State " ++ name ++ "\n" ++ String.join (state.map fun entry => caseLine entry.1 entry.2)

/-- The listing of an automaton. -/
def listing (automaton : Automaton) : String :=
  "Automaton initial=" ++ quoted automaton.initial ++ "\n"
    ++ String.join (automaton.states.map fun entry => stateLines entry.1 entry.2)

end TapeMachine.Automaton
