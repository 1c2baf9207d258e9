import TapeMachine.Diagnostic.Basic
import TapeMachine.Text.Quoted
import TapeMachine.Token.Basic

/-!
# TapeMachine.Token.Listing

Token lists for inspection.

A listing has a title line and then one line per token: its position, its length, its kind and,
for an error token, the code of its fault, for any other the value if it has one.

An error token that carries no fault cannot be listed, and then there is no listing at all.
-/

namespace TapeMachine.Token

/-- The name of a kind of tokens. -/
def Kind.name : Kind → String
  | .comment => "COMMENT"
  | .character => "CHARACTER"
  | .string => "STRING"
  | .identifier => "IDENTIFIER"
  | .initial => "INITIAL"
  | .state => "STATE"
  | .left => "LEFT"
  | .right => "RIGHT"
  | .self => "SELF"
  | .define => "DEFINE"
  | .leftBrace => "LBRACE"
  | .rightBrace => "RBRACE"
  | .slash => "SLASH"
  | .comma => "COMMA"
  | .arrow => "ARROW"
  | .endOfText => "EOF"
  | .error => "ERROR"

/-- A string with blanks in front, up to a width. -/
def padStart (width : Nat) (string : String) : String :=
  String.ofList (List.replicate (width - string.length) ' ') ++ string

/-- A string with blanks behind, up to a width. -/
def padEnd (width : Nat) (string : String) : String :=
  string ++ String.ofList (List.replicate (width - string.length) ' ')

/-- What the line of a token says behind its kind; `none` for an error token without a fault. -/
def remark? (token : Token) : Option String :=
  if token.kind = .error then token.fault.map fun fault => " " ++ fault.code
  else if token.value == "" then some ""
  else some (" " ++ quoted token.value)

/-- The line of a token. -/
def line? (token : Token) : Option String :=
  token.remark?.map fun remark =>
    "  " ++ padStart 5 (toString token.span.position) ++ "+"
      ++ padEnd 3 (toString token.span.length) ++ " " ++ token.kind.name ++ remark ++ "\n"

/-- The listing of some tokens. -/
def listing? (tokens : List Token) : Option String :=
  (fun lines => "Tokens\n" ++ String.join lines) <$> tokens.mapM line?

end TapeMachine.Token
