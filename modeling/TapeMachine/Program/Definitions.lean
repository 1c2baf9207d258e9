import TapeMachine.Automaton.Basic
import TapeMachine.Program.Declarations
import TapeMachine.Program.Shape

/-!
# TapeMachine.Program.Definitions

The definitions of a program.

Once all names are known, the definitions are read one after the other. A constant is only
checked, since its name is bound already; the block of a state is read into a table of cases and
enters the automaton.

* `Case.read` — one case of a block, with the names in it resolved.
* `Block.read` — the cases of a block, up to its closing brace.
* `Definition.readAt` — one top-level definition.
* `Definition.readAll` — all of them.

Design points:

* Reading never fails. Every mistake is a diagnostic, and reading goes on at a place where it can:
  behind the offending token inside a block, at the next token that starts a definition outside of
  one.
* A closing brace or a token that starts a definition always ends a block, so that a broken block
  does not swallow the next one.
* What is wrong with the names of a case is reported before what is wrong with its shape. A case
  with either is left out.
-/

namespace TapeMachine

/-- Where the first of some tokens stands, or where they end if there is none. -/
def headSpan (stop : Span) : List Token → Span
  | [] => stop
  | token :: _ => token.span

/-! ### Shapes -/

/-- A constant, behind its keyword. -/
def constantShape : Shape :=
  [{ accepts := (· == .identifier), missing := .expectedConstantName },
    { accepts := fun kind => kind == .character || kind == .string
      missing := .expectedConstantValue }]

/-- The head of a block, behind the mark of an initial state. -/
def headerShape : Shape :=
  [{ accepts := (· == .state), missing := .expectedState },
    { accepts := (· == .identifier), missing := .expectedStateName },
    { accepts := (· == .leftBrace), missing := .expectedLeftBrace }]

/-- The tokens that stand for a symbol. -/
def isSymbol (kind : Token.Kind) : Bool :=
  kind == .character || kind == .identifier

/-- A case: symbol, slash, replacement, comma, direction, arrow and target. -/
def caseShape : Shape :=
  [{ accepts := isSymbol, missing := .expectedCaseSymbol },
    { accepts := (· == .slash), missing := .expectedSlash },
    { accepts := isSymbol, missing := .expectedReplacement },
    { accepts := (· == .comma), missing := .expectedComma },
    { accepts := fun kind => kind == .left || kind == .right, missing := .expectedDirection },
    { accepts := (· == .arrow), missing := .expectedArrow },
    { accepts := fun kind => kind == .self || kind == .identifier, missing := .expectedTarget }]

/-! ### Cases -/

/-- What reading some of a block gives. -/
structure Block where
  /-- The cases read so far. -/
  state : State
  /-- What was wrong, in order. -/
  diagnostics : List Diagnostic
  /-- The tokens that were not read. -/
  rest : List Token

namespace Case

/-- The symbol a token stands for: the one it spells, or that of the character constant it names. -/
def symbol? (bindings : Bindings) (token : Token) : Option String :=
  if token.kind = .identifier then (bindings.lookup token.value).bind Binding.symbol?
  else some token.value

/-- What is wrong with the name of a symbol. -/
def symbolProblems (bindings : Bindings) (token : Token) : List Diagnostic :=
  match symbol? bindings token with
  | none => [Diagnostic.atSpan .unknownConstant token.span token.value]
  | some _ => []

/-- What is wrong with the symbol of a case: its name, or that the state has a case for it. -/
def inputProblems (bindings : Bindings) (state : State) (token : Token) : List Diagnostic :=
  match symbol? bindings token with
  | none => [Diagnostic.atSpan .unknownConstant token.span token.value]
  | some symbol =>
    if state.has symbol then [Diagnostic.atSpan .duplicateCase token.span symbol] else []

/-- What is wrong with the target of a case. -/
def targetProblems (bindings : Bindings) (token : Token) : List Diagnostic :=
  if token.kind == .identifier && !bindings.isState token.value then
    [Diagnostic.atSpan .unknownState token.span token.value]
  else []

/-- What is wrong with the names of a case, given as much of it as could be read: symbol,
replacement and target are its first, third and seventh token. -/
def problems (bindings : Bindings) (state : State) (matched : List Token) : List Diagnostic :=
  matched[0]?.toList.flatMap (inputProblems bindings state)
    ++ matched[2]?.toList.flatMap (symbolProblems bindings)
    ++ matched[6]?.toList.flatMap (targetProblems bindings)

/-- The symbol and the case that seven tokens of a block of the state `owner` stand for. -/
def ofTokens? (bindings : Bindings) (owner : String) : List Token → Option (String × Case)
  | [input, _, output, _, direction, _, target] => do
    let symbol ← symbol? bindings input
    let replacement ← symbol? bindings output
    return (symbol,
      { replacement
        direction := if direction.kind = .left then .left else .right
        target := if target.kind = .self then owner else target.value })
  | _ => none

/-- Whether a token ends the cases of a block. -/
def endsBlock (token : Token) : Bool :=
  token.kind == .rightBrace || token.startsDefinition

/-- Where the cases go on after one that broke off at the head of the tokens. -/
def skipFault : List Token → List Token
  | [] => []
  | token :: tokens => if endsBlock token then token :: tokens else tokens

/-- Reads one case of the state `owner`. It is entered if nothing is wrong with it. -/
def read (bindings : Bindings) (stop : Span) (owner : String) (state : State)
    (tokens : List Token) : Block :=
  let reading := caseShape.read tokens
  let wrong := problems bindings state reading.matched
  match reading.missing with
  | some fault =>
    { state
      diagnostics := wrong ++ [Diagnostic.atSpan fault (headSpan stop reading.rest) ""]
      rest := skipFault reading.rest }
  | none =>
    match wrong, ofTokens? bindings owner reading.matched with
    | [], some (symbol, case) =>
      { state := state.add symbol case, diagnostics := [], rest := reading.rest }
    | _, _ => { state, diagnostics := wrong, rest := reading.rest }

theorem skipFault_length_le (tokens : List Token) : (skipFault tokens).length ≤ tokens.length := by
  cases tokens with
  | nil => exact Nat.le_refl _
  | cons token tokens =>
    rw [skipFault]
    split <;> simp

/-- The tokens left by `read` are those its shape left, or those behind the faulty one. -/
theorem read_rest (bindings : Bindings) (stop : Span) (owner : String) (state : State)
    (tokens : List Token) :
    (read bindings stop owner state tokens).rest =
      if (caseShape.read tokens).missing.isSome then skipFault (caseShape.read tokens).rest
      else (caseShape.read tokens).rest := by
  cases h : (caseShape.read tokens).missing with
  | some fault => simp [read, h]
  | none =>
    simp only [read, h, Option.isSome_none]
    split <;> rfl

/-- Reading a case takes at least one token, whether the case is complete or not. -/
theorem read_rest_length_lt (bindings : Bindings) (stop : Span) (owner : String) (state : State)
    {token : Token} (tokens : List Token) (h : endsBlock token = false) :
    (read bindings stop owner state (token :: tokens)).rest.length < (token :: tokens).length := by
  rw [read_rest]
  by_cases hs : isSymbol token.kind = true
  · have hlt : (caseShape.read (token :: tokens)).rest.length < (token :: tokens).length :=
      Shape.read_rest_length_lt _ tokens hs
    have hle := skipFault_length_le (caseShape.read (token :: tokens)).rest
    split <;> omega
  · have hread : caseShape.read (token :: tokens) =
        { matched := [], missing := some .expectedCaseSymbol, rest := token :: tokens } := by
      rw [caseShape, Shape.read, if_neg hs]
    simp [hread, skipFault, h]

end Case

namespace Block

/-- Reads the cases of a block, up to a token that ends it. -/
def read (bindings : Bindings) (stop : Span) (owner : String) (state : State) : List Token → Block
  | [] => { state, diagnostics := [], rest := [] }
  | token :: tokens =>
    if Case.endsBlock token then { state, diagnostics := [], rest := token :: tokens }
    else
      let step := Case.read bindings stop owner state (token :: tokens)
      let block := read bindings stop owner step.state step.rest
      { block with diagnostics := step.diagnostics ++ block.diagnostics }
termination_by tokens => tokens.length
decreasing_by
  next h => exact Case.read_rest_length_lt bindings stop owner state tokens (by simpa using h)

/-- Closes a block. If the brace is missing then that is reported and nothing is skipped. -/
def close (stop : Span) : List Token → List Diagnostic × List Token
  | [] => ([Diagnostic.atSpan .expectedRightBrace stop ""], [])
  | token :: tokens =>
    if token.kind = .rightBrace then ([], tokens)
    else ([Diagnostic.atSpan .expectedRightBrace token.span ""], token :: tokens)

theorem read_nil (bindings : Bindings) (stop : Span) (owner : String) (state : State) :
    read bindings stop owner state [] = { state, diagnostics := [], rest := [] } := by
  rw [read]

theorem read_of_endsBlock (bindings : Bindings) (stop : Span) (owner : String) (state : State)
    {token : Token} (tokens : List Token) (h : Case.endsBlock token = true) :
    read bindings stop owner state (token :: tokens) =
      { state, diagnostics := [], rest := token :: tokens } := by
  rw [read, if_pos h]

theorem read_of_not_endsBlock (bindings : Bindings) (stop : Span) (owner : String) (state : State)
    {token : Token} (tokens : List Token) (h : Case.endsBlock token = false) :
    read bindings stop owner state (token :: tokens) =
      let step := Case.read bindings stop owner state (token :: tokens)
      let block := read bindings stop owner step.state step.rest
      { block with diagnostics := step.diagnostics ++ block.diagnostics } := by
  rw [read, if_neg (by simp [h])]

theorem read_rest_length_le (bindings : Bindings) (stop : Span) (owner : String) (state : State)
    (tokens : List Token) :
    (read bindings stop owner state tokens).rest.length ≤ tokens.length := by
  fun_induction read bindings stop owner state tokens with
  | case1 => simp
  | case2 => simp
  | case3 state token tokens h step block ih =>
    have hends : Case.endsBlock token = false := by simpa using h
    have hlt := Case.read_rest_length_lt bindings stop owner state tokens hends
    exact Nat.le_trans ih (Nat.le_of_lt hlt)

theorem close_length_le (stop : Span) (tokens : List Token) :
    (close stop tokens).2.length ≤ tokens.length := by
  cases tokens with
  | nil => exact Nat.le_refl _
  | cons token tokens =>
    rw [close]
    split <;> simp

end Block

/-! ### Definitions -/

/-- What reading some definitions gives. -/
structure Definition where
  /-- The automaton built so far. -/
  automaton : Automaton
  /-- What was wrong, in order. -/
  diagnostics : List Diagnostic
  /-- The tokens that were not read. -/
  rest : List Token

namespace Definition

/-- Skips to the next token that starts a definition. -/
def synchronize (tokens : List Token) : List Token :=
  tokens.dropWhile fun token => !token.startsDefinition

/-- Enters a state into the automaton. A name that is bound to a constant and a name that the
automaton has already are left out: the first declaration wins. -/
def register (bindings : Bindings) (automaton : Automaton) (initial : Bool) (name : String)
    (state : State) : Automaton :=
  if bindings.isState name && !automaton.states.has name then
    { initial := if initial then name else automaton.initial
      states := automaton.states.add name state }
  else automaton

/-- Checks a constant, behind its keyword. -/
def readConstant (stop : Span) (automaton : Automaton) (tokens : List Token) : Definition :=
  let reading := constantShape.read tokens
  match reading.missing with
  | none => { automaton, diagnostics := [], rest := reading.rest }
  | some fault =>
    { automaton
      diagnostics := [Diagnostic.atSpan fault (headSpan stop reading.rest) ""]
      rest := synchronize reading.rest }

/-- Reads a state from its keyword on. -/
def readState (bindings : Bindings) (stop : Span) (automaton : Automaton) (initial : Bool)
    (tokens : List Token) : Definition :=
  let header := headerShape.read tokens
  match header.missing with
  | none =>
    let name := (header.matched[1]?.map Token.value).getD ""
    let block := Block.read bindings stop name [] header.rest
    let closed := Block.close stop block.rest
    { automaton := register bindings automaton initial name block.state
      diagnostics := block.diagnostics ++ closed.1
      rest := closed.2 }
  | some fault =>
    { automaton
      diagnostics := [Diagnostic.atSpan fault (headSpan stop header.rest) ""]
      rest := synchronize header.rest }

/-- Reads a state marked as initial, behind the mark. If there is an initial state already, then the
mark is reported and the block is read as that of an ordinary state. -/
def readInitial (bindings : Bindings) (stop : Span) (automaton : Automaton) (mark : Token)
    (tokens : List Token) : Definition :=
  if automaton.initial == "" then readState bindings stop automaton true tokens
  else
    let state := readState bindings stop automaton false tokens
    { state with
      diagnostics :=
        Diagnostic.atSpan .secondInitialState mark.span automaton.initial :: state.diagnostics }

/-- Reads the definition that starts with the given token. A token that starts none is reported
and skipped, with all that follows up to one that does. -/
def readAt (bindings : Bindings) (stop : Span) (automaton : Automaton) (token : Token)
    (tokens : List Token) : Definition :=
  match token.kind with
  | .define => readConstant stop automaton tokens
  | .initial => readInitial bindings stop automaton token tokens
  | .state => readState bindings stop automaton false (token :: tokens)
  | _ =>
    { automaton
      diagnostics := [Diagnostic.atSpan .expectedState token.span ""]
      rest := synchronize tokens }

theorem synchronize_length_le (tokens : List Token) :
    (synchronize tokens).length ≤ tokens.length :=
  (List.dropWhile_suffix _).length_le

theorem readConstant_length_le (stop : Span) (automaton : Automaton) (tokens : List Token) :
    (readConstant stop automaton tokens).rest.length ≤ tokens.length := by
  have hread := Shape.read_rest_length_le constantShape tokens
  simp only [readConstant]
  split
  · exact hread
  · exact Nat.le_trans (synchronize_length_le _) hread

/-- A state leaves no more tokens than its head does. -/
theorem readState_length_le_header (bindings : Bindings) (stop : Span) (automaton : Automaton)
    (initial : Bool) (tokens : List Token) :
    (readState bindings stop automaton initial tokens).rest.length ≤
      (headerShape.read tokens).rest.length := by
  simp only [readState]
  split
  · exact Nat.le_trans (Block.close_length_le _ _) (Block.read_rest_length_le _ _ _ _ _)
  · exact synchronize_length_le _

theorem readState_length_le (bindings : Bindings) (stop : Span) (automaton : Automaton)
    (initial : Bool) (tokens : List Token) :
    (readState bindings stop automaton initial tokens).rest.length ≤ tokens.length :=
  Nat.le_trans (readState_length_le_header bindings stop automaton initial tokens)
    (Shape.read_rest_length_le headerShape tokens)

theorem readInitial_length_le (bindings : Bindings) (stop : Span) (automaton : Automaton)
    (mark : Token) (tokens : List Token) :
    (readInitial bindings stop automaton mark tokens).rest.length ≤ tokens.length := by
  unfold readInitial
  split
  · exact readState_length_le _ _ _ _ _
  · exact readState_length_le _ _ _ _ _

/-- A definition takes at least the token it starts with. -/
theorem readAt_length_le (bindings : Bindings) (stop : Span) (automaton : Automaton) (token : Token)
    (tokens : List Token) :
    (readAt bindings stop automaton token tokens).rest.length ≤ tokens.length := by
  unfold readAt
  split
  · exact readConstant_length_le _ _ _
  · exact readInitial_length_le _ _ _ _ _
  · next hkind =>
    have hlt : (headerShape.read (token :: tokens)).rest.length < (token :: tokens).length :=
      Shape.read_rest_length_lt _ tokens (by simp [hkind])
    have hle := readState_length_le_header bindings stop automaton false (token :: tokens)
    simp only [List.length_cons] at hlt
    omega
  · exact synchronize_length_le _

/-- Reads all definitions among some tokens into an automaton. -/
def readAll (bindings : Bindings) (stop : Span) (automaton : Automaton) :
    List Token → Automaton × List Diagnostic
  | [] => (automaton, [])
  | token :: tokens =>
    let definition := readAt bindings stop automaton token tokens
    let later := readAll bindings stop definition.automaton definition.rest
    (later.1, definition.diagnostics ++ later.2)
termination_by tokens => tokens.length
decreasing_by
  exact Nat.lt_succ_of_le (readAt_length_le bindings stop automaton token tokens)

@[simp] theorem readAll_nil (bindings : Bindings) (stop : Span) (automaton : Automaton) :
    readAll bindings stop automaton [] = (automaton, []) := by
  rw [readAll]

theorem readAll_cons (bindings : Bindings) (stop : Span) (automaton : Automaton) (token : Token)
    (tokens : List Token) :
    readAll bindings stop automaton (token :: tokens) =
      let definition := readAt bindings stop automaton token tokens
      let later := readAll bindings stop definition.automaton definition.rest
      (later.1, definition.diagnostics ++ later.2) := by
  rw [readAll]

end Definition

end TapeMachine
