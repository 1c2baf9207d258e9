import TapeMachine.Diagnostic.Basic

/-!
# TapeMachine.Program.Shape

Fixed shapes of tokens.

The constructs of the language are short, fixed rows of tokens. A `Shape` lists what is accepted
at each place of such a row and the fault to report if something else stands there. `Shape.read`
follows a shape as far as the tokens fit it.

* `Reading` — the tokens that fitted, the fault of the place that did not, and the tokens not
  read.
* `Shape.read_append` — nothing is lost: what fitted and what is left are the tokens that were
  read.
-/

namespace TapeMachine

/-- One place of a shape. -/
structure Slot where
  /-- The kinds of tokens that fit. -/
  accepts : Token.Kind → Bool
  /-- The fault to report where none of them stands. -/
  missing : ParseFault

/-- A row of places. -/
abbrev Shape := List Slot

/-- How far some tokens fit a shape. -/
structure Reading where
  /-- The tokens that fitted, in order. -/
  matched : List Token
  /-- The fault of the first place that nothing fitted; `none` if all were filled. -/
  missing : Option ParseFault
  /-- The tokens from the first that did not fit on. -/
  rest : List Token

namespace Shape

/-- Follows a shape as far as the tokens fit it. -/
def read : Shape → List Token → Reading
  | [], tokens => { matched := [], missing := none, rest := tokens }
  | slot :: _, [] => { matched := [], missing := some slot.missing, rest := [] }
  | slot :: slots, token :: tokens =>
    if slot.accepts token.kind then
      let reading := read slots tokens
      { reading with matched := token :: reading.matched }
    else { matched := [], missing := some slot.missing, rest := token :: tokens }

@[simp] theorem read_nil (tokens : List Token) :
    read [] tokens = { matched := [], missing := none, rest := tokens } := rfl

@[simp] theorem read_cons_nil (slot : Slot) (slots : Shape) :
    read (slot :: slots) [] = { matched := [], missing := some slot.missing, rest := [] } := rfl

/-- Nothing is lost: what fitted and what is left make up what was read. -/
theorem read_append (shape : Shape) (tokens : List Token) :
    (read shape tokens).matched ++ (read shape tokens).rest = tokens := by
  induction shape generalizing tokens with
  | nil => rfl
  | cons slot slots ih =>
    cases tokens with
    | nil => rfl
    | cons token tokens =>
      rw [read]
      split
      · simpa using ih tokens
      · rfl

theorem read_rest_length_le (shape : Shape) (tokens : List Token) :
    (read shape tokens).rest.length ≤ tokens.length := by
  have h := congrArg List.length (read_append shape tokens)
  simp only [List.length_append] at h
  omega

/-- If the first place was filled, then fewer tokens are left. -/
theorem read_rest_length_lt {slot : Slot} {token : Token} (slots : Shape) (tokens : List Token)
    (h : slot.accepts token.kind = true) :
    (read (slot :: slots) (token :: tokens)).rest.length < (token :: tokens).length := by
  rw [read, if_pos h]
  have := read_rest_length_le slots tokens
  simp only [List.length_cons]
  omega

/-- If nothing fits the first place, then nothing is read. -/
theorem read_rest_of_not {slot : Slot} {token : Token} (slots : Shape) (tokens : List Token)
    (h : slot.accepts token.kind = false) :
    (read (slot :: slots) (token :: tokens)).rest = token :: tokens := by
  rw [read, if_neg (by simp [h])]

end Shape

end TapeMachine
