import TapeMachine.Automaton.Basic
import TapeMachine.Text.Basic

/-!
# TapeMachine.Automaton.Printer

Automata as program text.

The printed program has one block per state, the initial state first and the others in their
order, with a blank line between blocks. Every symbol is written as a character literal and a case
that stays in its state is written with `self`:

```text
initial state scan {
    '1'/'1',R->self
    ' '/'1',L->done
}

state done {}
```

Names and symbols are written as they are, so the text can be read back only if they are names of
the language and single characters.
-/

namespace TapeMachine.Automaton

/-- A case of the state `owner`, for one symbol. -/
def caseText (owner symbol : String) (case : Case) : Text :=
  let target := if case.target == owner then "self" else case.target
  '\'' :: symbol.toList ++ "'/'".toList ++ case.replacement.toList ++ "',".toList
    ++ case.direction.letter.toList ++ "->".toList ++ target.toList

/-- The line that opens the block of a state. -/
def headerText (initial : Bool) (name : String) : Text :=
  (if initial then "initial ".toList else []) ++ "state ".toList ++ name.toList ++ [' ', '{']

/-- The block of a state. A state without cases is written on one line. -/
def stateText (indent : Text) (initial : Bool) (name : String) (state : State) : Text :=
  let header := headerText initial name
  if state.isEmpty then header ++ ['}']
  else
    header ++ '\n' ::
      (state.flatMap fun entry => indent ++ caseText name entry.1 entry.2 ++ ['\n']) ++ ['}']

/-- The states with the initial one first and the others in their order. -/
def initialFirst (automaton : Automaton) : Table State :=
  automaton.states.filter (·.1 == automaton.initial)
    ++ automaton.states.filter (·.1 != automaton.initial)

/-- The indentation of cases, unless another is asked for. -/
def defaultIndent : Text := "    ".toList

/-- An automaton as program text. -/
def toText (automaton : Automaton) (indent : Text) : Text :=
  let blocks := automaton.initialFirst.map fun entry =>
    stateText indent (entry.1 == automaton.initial) entry.1 entry.2
  if blocks.isEmpty then [] else List.intercalate ['\n', '\n'] blocks ++ ['\n']

end TapeMachine.Automaton
