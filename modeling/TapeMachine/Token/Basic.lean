import TapeMachine.Text.Basic

/-!
# TapeMachine.Token.Basic

Tokens of the language.

* `Span` — a stretch of a text, by position and length. Spans of tokens that were not read from a
  text may be anywhere, so both are integers.
* `LexFault` — what can be wrong with the text of a token.
* `Token` — a kind, a value, a span and, on error tokens, the fault.

Design points:

* Keywords, punctuation and comments have an empty value: their kind says all. Identifiers carry
  their name, character and string literals their text without the delimiters.
* The fault is a field of every token, since a hand-made token may carry one without being of kind
  `Kind.error`, or be of that kind and carry none. The parser looks only at kinds and values.
-/

namespace TapeMachine

/-- A stretch of a text. -/
structure Span where
  /-- The offset of the first character. -/
  position : Int
  /-- The number of characters. -/
  length : Int
deriving Repr, DecidableEq, Inhabited

/-- What can be wrong with the text of a token. -/
inductive LexFault where
  /-- A character that starts no token. -/
  | illegalCharacter
  /-- A comment that is never closed. -/
  | unclosedComment
  /-- A character literal without its closing apostrophe. -/
  | unclosedCharacter
  /-- An apostrophe at the end of the text. -/
  | missingCharacter
  /-- A hyphen that no greater-than sign follows. -/
  | loneHyphen
  /-- A string literal that is never closed. -/
  | unclosedString
deriving Repr, DecidableEq

namespace Token

/-- The kinds of tokens. -/
inductive Kind where
  /-- A comment, between two number signs. -/
  | comment
  /-- A character literal, one character between apostrophes. -/
  | character
  /-- A string literal, between quotation marks. -/
  | string
  /-- A word that is no keyword. -/
  | identifier
  /-- The keyword `initial`. -/
  | initial
  /-- The keyword `state`. -/
  | state
  /-- The keyword `L`. -/
  | left
  /-- The keyword `R`. -/
  | right
  /-- The keyword `self`. -/
  | self
  /-- The keyword `define`. -/
  | define
  /-- An opening brace. -/
  | leftBrace
  /-- A closing brace. -/
  | rightBrace
  /-- A slash. -/
  | slash
  /-- A comma. -/
  | comma
  /-- An arrow, a hyphen and a greater-than sign. -/
  | arrow
  /-- The end of the text. -/
  | endOfText
  /-- A stretch of text that is no token. -/
  | error
deriving Repr, DecidableEq

end Token

/-- A token. -/
structure Token where
  /-- What the token is. -/
  kind : Token.Kind
  /-- The name of an identifier, or the text of a literal. -/
  value : String
  /-- Where the token stands. -/
  span : Span
  /-- What is wrong, on an error token. -/
  fault : Option LexFault
deriving Repr, DecidableEq

namespace Token

/-! ### Keywords -/

/-- The six keywords and their kinds. -/
def keywords : List (String × Kind) :=
  [("initial", .initial), ("state", .state), ("L", .left), ("R", .right), ("self", .self),
    ("define", .define)]

/-- The kind of a word, if it is a keyword. -/
def keyword? (word : String) : Option Kind :=
  keywords.lookup word

/-! ### Questions about a token -/

/-- Whether a kind of token starts a top-level definition. These are the places at which reading
resumes after a mistake. -/
def Kind.startsDefinition : Kind → Bool
  | .define | .initial | .state => true
  | _ => false

/-- Whether a token starts a top-level definition. -/
def startsDefinition (token : Token) : Bool :=
  token.kind.startsDefinition

end Token

end TapeMachine
