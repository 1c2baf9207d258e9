import TapeMachine.Diagnostic.Report
import TapeMachine.Program.Definitions
import TapeMachine.Token.Lexer

/-!
# TapeMachine.Program.Basic

Programs: from text or tokens to an automaton.

* `Body` — the tokens that matter to a program: comments left out, cut at the first end.
* `Program.ofTokens` — reads tokens, whatever they are, into an automaton, the declared names and
  the diagnostics.
* `Compilation.ofText` — reads a text. Faults of the text are reported alone, since what is wrong
  with the tokens then follows from them.
* `Compilation.unwrap` — the automaton of a text without faults, or the report on them.
-/

namespace TapeMachine

/-- The tokens of a program, and the place at which their end is reported. -/
structure Body where
  /-- The tokens before the end, without comments. -/
  tokens : List Token
  /-- The place of the end. -/
  stop : Span
deriving Repr, DecidableEq

namespace Body

/-- Where some tokens without comments end: at the first ending token, or else just behind the last
token. -/
def stopOf (tokens : List Token) : Span :=
  match tokens.find? (·.kind == .endOfText) with
  | some token => token.span
  | none =>
    match tokens.getLast? with
    | some token => { position := token.span.position + token.span.length, length := 0 }
    | none => { position := 0, length := 0 }

/-- The body of a token list. -/
def ofTokens (tokens : List Token) : Body :=
  let visible := tokens.filter (·.kind != .comment)
  { tokens := visible.takeWhile (·.kind != .endOfText), stop := stopOf visible }

end Body

/-- What was read of a program. -/
structure Program where
  /-- The automaton, as far as it could be built. -/
  automaton : Automaton
  /-- The declared names. -/
  bindings : Bindings
  /-- What is wrong, in order. -/
  diagnostics : List Diagnostic
deriving Repr, DecidableEq

namespace Program

/-- The diagnostic on an automaton without an initial state. -/
def initialProblems (automaton : Automaton) : List Diagnostic :=
  if automaton.initial == "" then
    [{ kind := .parse .noInitialState, place := none, value := "" }]
  else []

/-- Reads a token list: first the names, then the definitions. -/
def ofTokens (tokens : List Token) : Program :=
  let body := Body.ofTokens tokens
  let declarations := Declaration.ofTokens body.tokens
  let bindings := Declaration.bindings declarations
  let built := Definition.readAll bindings body.stop Automaton.empty body.tokens
  { automaton := built.1
    bindings
    diagnostics := Declaration.repeated declarations ++ built.2 ++ initialProblems built.1 }

/-- Whether nothing is wrong. -/
def ok (program : Program) : Bool :=
  program.diagnostics.isEmpty

end Program

/-- What compiling a text gives. -/
structure Compilation where
  /-- The text. -/
  source : Text
  /-- Its tokens. -/
  tokens : List Token
  /-- The automaton; `none` if the text has faults. -/
  automaton : Option Automaton
  /-- The declared names. -/
  bindings : Bindings
  /-- What is wrong, in order. -/
  diagnostics : List Diagnostic
deriving Repr, DecidableEq

/-- Why a text gives no automaton. -/
inductive Rejection where
  /-- The text has faults; this is the report on them. -/
  | faulty (report : String)
  /-- The text has faults, and one of them cannot be worded. -/
  | unprintable (cause : Template.Error)
deriving Repr, DecidableEq

namespace Compilation

/-- The file name of reports, unless another is given. -/
def defaultFilename : String := "input.tm"

/-- The faults of the text that some tokens carry. -/
def lexicalProblems (tokens : List Token) : List Diagnostic :=
  (tokens.filter (·.kind == .error)).filterMap Diagnostic.ofToken?

/-- Compiles a text. -/
def ofText (source : Text) : Compilation :=
  let tokens := Token.ofText source
  match lexicalProblems tokens with
  | [] =>
    let program := Program.ofTokens tokens
    { source, tokens
      automaton := some program.automaton
      bindings := program.bindings
      diagnostics := program.diagnostics }
  | problem :: more =>
    { source, tokens, automaton := none, bindings := [], diagnostics := problem :: more }

/-- Whether nothing is wrong. -/
def ok (compilation : Compilation) : Bool :=
  compilation.automaton.isSome && compilation.diagnostics.isEmpty

/-- The automaton, or the report on what is wrong, in which the file is called by the given name. -/
def unwrap (compilation : Compilation) (filename : String) : Except Rejection Automaton :=
  match compilation.automaton, compilation.diagnostics with
  | some automaton, [] => .ok automaton
  | _, diagnostics =>
    match Diagnostic.report diagnostics compilation.source filename with
    | .ok report => .error (.faulty report)
    | .error cause => .error (.unprintable cause)

end Compilation

end TapeMachine
