import TapeMachine.Text.Template
import TapeMachine.Token.Basic

/-!
# TapeMachine.Diagnostic.Basic

What is wrong with a program, and where.

* `ParseFault` — the mistakes of a token list, as `LexFault` has those of a text.
* `Diagnostic` — a fault with the span it is about and the name or symbol it speaks of.
* `Diagnostic.message` — its wording, from a template.

Design points:

* A diagnostic about the program as a whole has no place.
* Three templates hold a brace that is no hole (`expectedLeftBrace`, `expectedRightBrace`,
  `expectedCaseSymbol`), so that asking for their message fails; wording is therefore `Except`.
-/

namespace TapeMachine

/-- What can be wrong with a list of tokens. -/
inductive ParseFault where
  /-- Something else stands where a definition should start. -/
  | expectedState
  /-- The name of a state is missing. -/
  | expectedStateName
  /-- The brace that opens a state is missing. -/
  | expectedLeftBrace
  /-- The brace that closes a state is missing. -/
  | expectedRightBrace
  /-- Something else stands where a case should start. -/
  | expectedCaseSymbol
  /-- The slash of a case is missing. -/
  | expectedSlash
  /-- The replacement of a case is missing. -/
  | expectedReplacement
  /-- The comma of a case is missing. -/
  | expectedComma
  /-- The direction of a case is missing. -/
  | expectedDirection
  /-- The arrow of a case is missing. -/
  | expectedArrow
  /-- The target of a case is missing. -/
  | expectedTarget
  /-- The name of a constant is missing. -/
  | expectedConstantName
  /-- The literal of a constant is missing. -/
  | expectedConstantValue
  /-- A name that was declared before. -/
  | nameInUse
  /-- A second state marked as the initial one. -/
  | secondInitialState
  /-- A second case for a symbol of one state. -/
  | duplicateCase
  /-- A name used as a symbol that is no character constant. -/
  | unknownConstant
  /-- A target that is no state. -/
  | unknownState
  /-- No state is marked as the initial one. -/
  | noInitialState
deriving Repr, DecidableEq

namespace Diagnostic

/-- The kinds of diagnostics. -/
inductive Kind where
  /-- A fault of the text. -/
  | lexical (fault : LexFault)
  /-- A fault of the token list. -/
  | parse (fault : ParseFault)
deriving Repr, DecidableEq

end Diagnostic

/-- A fault of a program. -/
structure Diagnostic where
  /-- What is wrong. -/
  kind : Diagnostic.Kind
  /-- Where; `none` for a fault of the program as a whole. -/
  place : Option Span
  /-- The name or symbol the fault is about, or nothing. -/
  value : String
deriving Repr, DecidableEq

/-! ### Codes -/

/-- The code of a fault of the text. -/
def LexFault.code : LexFault → String
  | .illegalCharacter => "ILLEGAL_CHARACTER"
  | .unclosedComment => "EXPECTED_MATCHING_HASHTAG"
  | .unclosedCharacter => "EXPECTED_MATCHING_APOSTROPHE"
  | .missingCharacter => "EXPECTED_CHARACTER_EXPRESSION"
  | .loneHyphen => "EXPECTED_GREATER_THAN_SYMBOL"
  | .unclosedString => "EXPECTED_MATCHING_QUOTATIONS"

/-- The code of a fault of the token list. -/
def ParseFault.code : ParseFault → String
  | .expectedState => "EXPECTED_KEYWORD_STATE"
  | .expectedStateName => "EXPECTED_STATE_ID"
  | .expectedLeftBrace => "EXPECTED_LEFT_CURLY_BRACE"
  | .expectedRightBrace => "EXPECTED_RIGHT_CURLY_BRACE"
  | .expectedCaseSymbol => "EXPECTED_CASE_CHARACTER"
  | .expectedSlash => "EXPECTED_SLASH"
  | .expectedReplacement => "EXPECTED_REPLACEMENT_CHARACTER"
  | .expectedComma => "EXPECTED_COMMA"
  | .expectedDirection => "EXPECTED_DIRECTION"
  | .expectedArrow => "EXPECTED_ARROW"
  | .expectedTarget => "EXPECTED_TARGET_STATE"
  | .expectedConstantName => "EXPECTED_CONSTANT_IDENTIFIER"
  | .expectedConstantValue => "EXPECTED_CONSTANT_VALUE"
  | .nameInUse => "ID_ALREADY_IN_USE"
  | .secondInitialState => "INITIAL_STATE_ALREADY_EXISTS"
  | .duplicateCase => "CHARACTER_CASE_ALREADY_EXISTS_WITHIN_STATE"
  | .unknownConstant => "COULD_NOT_FIND_CONSTANT"
  | .unknownState => "STATE_ID_DOES_NOT_EXIST"
  | .noInitialState => "NO_INITIAL_STATE_EXISTS"

/-! ### Wording -/

/-- The message template of a fault of the text. -/
def LexFault.template : LexFault → String
  | .illegalCharacter => "illegal character"
  | .unclosedComment => "unterminated comment, expected matching '#'"
  | .unclosedCharacter => "expected matching apostrophe"
  | .missingCharacter => "expected character expression"
  | .loneHyphen => "expected '>' after '-'"
  | .unclosedString => "unterminated string, expected matching '\"'"

/-- The message template of a fault of the token list. -/
def ParseFault.template : ParseFault → String
  | .expectedState => "expected state declaration"
  | .expectedStateName => "expected state id"
  | .expectedLeftBrace => "expected '\x7b'"
  | .expectedRightBrace => "expected '\x7d' to close state"
  | .expectedCaseSymbol => "expected case character or '\x7d'"
  | .expectedSlash => "expected '/' between case character and replacement character"
  | .expectedReplacement => "expected replacement character"
  | .expectedComma => "expected ',' between replacement character and tape direction"
  | .expectedDirection => "expected direction 'L' or 'R'"
  | .expectedArrow => "expected '->' between direction and target state"
  | .expectedTarget => "expected target state"
  | .expectedConstantName => "expected constant name after 'define'"
  | .expectedConstantValue => "expected character or string value for constant"
  | .nameInUse => "id \"\x7bvalue\x7d\" is already in use"
  | .secondInitialState =>
    "there should only be one initial state, \"\x7bvalue\x7d\" is already initial"
  | .duplicateCase => "case character '\x7bvalue\x7d' cannot exist more than once in the same state"
  | .unknownConstant => "could not find character constant \"\x7bvalue\x7d\""
  | .unknownState => "state \"\x7bvalue\x7d\" does not exist"
  | .noInitialState => "there must be one initial state"

namespace Diagnostic

/-- The code of a kind of diagnostic. -/
def Kind.code : Kind → String
  | .lexical fault => fault.code
  | .parse fault => fault.code

/-- The message template of a kind of diagnostic. -/
def Kind.template : Kind → String
  | .lexical fault => fault.template
  | .parse fault => fault.template

/-- Whether a diagnostic is about the text rather than the tokens. -/
def isLexical (diagnostic : Diagnostic) : Bool :=
  match diagnostic.kind with
  | .lexical _ => true
  | .parse _ => false

/-- The wording of a diagnostic. -/
def message (diagnostic : Diagnostic) : Except Template.Error String :=
  String.ofList <$> Template.fill diagnostic.value.toList diagnostic.kind.template.toList

/-- A fault of the token list at a span. -/
def atSpan (fault : ParseFault) (span : Span) (value : String) : Diagnostic :=
  { kind := .parse fault, place := some span, value }

/-- The diagnostic of an error token that carries its fault. -/
def ofToken? (token : Token) : Option Diagnostic :=
  token.fault.map fun fault => { kind := .lexical fault, place := some token.span, value := "" }

end Diagnostic

end TapeMachine
