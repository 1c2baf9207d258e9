import TapeMachine.Token.Basic

/-!
# TapeMachine.Token.Lexer

From text to tokens.

`Lexeme.scan` looks at the head of a text, which is not a space, and says what stands there: the
token, relative to the place where it starts, and the number of characters it takes.
`Token.ofTextAt` repeats it along the text, skips spaces between lexemes and ends with one token
of kind `endOfText`.

Design points:

* A lexeme does not know where it stands; only `Lexeme.toToken` adds the offset. What is read at a
  place depends on the text from there on and on nothing else.
* Reading never fails: text that is no token becomes an error token, and reading goes on behind
  it.
* Every lexeme takes at least one character (`Lexeme.scan_width_pos`), so reading ends.
-/

namespace TapeMachine

/-- What stands at the head of a text. -/
structure Lexeme where
  /-- The kind of the token. -/
  kind : Token.Kind
  /-- The value of the token. -/
  value : String
  /-- Where the token's span starts, counted from the lexeme's first character. -/
  offset : Nat
  /-- The length of the token's span. -/
  length : Nat
  /-- What is wrong, for an error token. -/
  fault : Option LexFault
  /-- How many characters of the text the lexeme takes. -/
  width : Nat
deriving Repr, DecidableEq

namespace Lexeme

/-- A lexeme with an empty value whose span is all of its text. -/
def plain (kind : Token.Kind) (width : Nat) : Lexeme :=
  { kind, value := "", offset := 0, length := width, fault := none, width }

/-- A lexeme between two delimiters, one character each. The span is that of the body. -/
def enclosed (kind : Token.Kind) (value : String) (length : Nat) : Lexeme :=
  { kind, value, offset := 1, length, fault := none, width := length + 2 }

/-- An error that takes `width` characters and is reported just behind them. -/
def broken (fault : LexFault) (length width : Nat) : Lexeme :=
  { kind := .error, value := "", offset := width, length, fault := some fault, width }

/-- Reads a comment behind its opening number sign. -/
def comment (rest : Text) : Lexeme :=
  let body := rest.takeWhile (· != '#')
  if body.length < rest.length then enclosed .comment "" body.length
  else broken .unclosedComment body.length (body.length + 1)

/-- Reads a string literal behind its opening quotation mark. -/
def string (rest : Text) : Lexeme :=
  let body := rest.takeWhile (· != '"')
  if body.length < rest.length then enclosed .string (String.ofList body) body.length
  else broken .unclosedString (body.length + 1) (body.length + 1)

/-- Reads a character literal behind its opening apostrophe. Any character may stand between
the apostrophes, an apostrophe too. -/
def character : Text → Lexeme
  | [] => broken .missingCharacter 0 1
  | c :: '\'' :: _ => enclosed .character (String.ofList [c]) 1
  | _ :: _ => broken .unclosedCharacter 0 2

/-- Reads a word: the longest stretch of letters, digits and underscores. -/
def word (text : Text) : Lexeme :=
  let letters := text.takeWhile Text.isIdentChar
  let name := String.ofList letters
  match Token.keyword? name with
  | some kind => plain kind letters.length
  | none => { plain .identifier letters.length with value := name }

/-- Reads an arrow behind its hyphen. -/
def arrow : Text → Lexeme
  | '>' :: _ => plain .arrow 2
  | _ => broken .loneHyphen 0 1

/-- The kind of a punctuation mark of one character. -/
def punctuation? : Char → Option Token.Kind
  | '{' => some .leftBrace
  | '}' => some .rightBrace
  | '/' => some .slash
  | ',' => some .comma
  | _ => none

/-- A character that starts no token. It is reported where it stands. -/
def illegal : Lexeme :=
  { kind := .error
    value := ""
    offset := 0
    length := 1
    fault := some .illegalCharacter
    width := 1 }

/-- What stands at the head of the text `c :: rest`, where `c` is not a space. -/
def scan (c : Char) (rest : Text) : Lexeme :=
  if c == '#' then comment rest
  else if c == '\'' then character rest
  else if c == '"' then string rest
  else if Text.isIdentStart c then word (c :: rest)
  else
    match punctuation? c with
    | some kind => plain kind 1
    | none => if c == '-' then arrow rest else illegal

/-- The token of a lexeme that starts at the given offset. -/
def toToken (lexeme : Lexeme) (start : Nat) : Token :=
  { kind := lexeme.kind
    value := lexeme.value
    span := { position := (start + lexeme.offset : Nat), length := (lexeme.length : Nat) }
    fault := lexeme.fault }

/-! ### Lexemes take characters -/

theorem comment_width_pos (rest : Text) : 0 < (comment rest).width := by
  simp only [comment]
  split <;> simp [enclosed, broken]

theorem string_width_pos (rest : Text) : 0 < (string rest).width := by
  simp only [string]
  split <;> simp [enclosed, broken]

theorem character_width_pos (rest : Text) : 0 < (character rest).width := by
  unfold character
  split <;> simp [enclosed, broken]

theorem arrow_width_pos (rest : Text) : 0 < (arrow rest).width := by
  unfold arrow
  split <;> simp [plain, broken]

theorem word_width (text : Text) :
    (word text).width = (text.takeWhile Text.isIdentChar).length := by
  simp only [word]
  split <;> rfl

theorem word_width_pos {c : Char} (h : Text.isIdentStart c = true) (rest : Text) :
    0 < (word (c :: rest)).width := by
  simp [word_width, Text.isIdentChar_of_isIdentStart h]

/-- Every lexeme takes at least one character. -/
theorem scan_width_pos (c : Char) (rest : Text) : 0 < (scan c rest).width := by
  unfold scan
  split
  · exact comment_width_pos rest
  · split
    · exact character_width_pos rest
    · split
      · exact string_width_pos rest
      · split
        · next h => exact word_width_pos h rest
        · split
          · simp [plain]
          · split
            · exact arrow_width_pos rest
            · simp [illegal]

end Lexeme

namespace Token

/-- The token that ends a text of the given length. -/
def ending (offset : Nat) : Token :=
  { kind := .endOfText
    value := ""
    span := { position := (offset : Nat), length := 0 }
    fault := none }

/-- The tokens of a text that starts at the given offset of the whole. -/
def ofTextAt (start : Nat) : Text → List Token
  | [] => [ending start]
  | c :: rest =>
    if Text.isSpace c then ofTextAt (start + 1) rest
    else
      let lexeme := Lexeme.scan c rest
      lexeme.toToken start :: ofTextAt (start + lexeme.width) ((c :: rest).drop lexeme.width)
termination_by text => text.length
decreasing_by
  · simp
  · have := Lexeme.scan_width_pos c rest
    simp only [List.length_drop, List.length_cons]
    omega

/-- The tokens of a text, comments and the ending one included. -/
def ofText (text : Text) : List Token :=
  ofTextAt 0 text

@[simp] theorem ofTextAt_nil (start : Nat) : ofTextAt start [] = [ending start] := by
  rw [ofTextAt]

/-- A space moves the start of what follows and leaves no token. -/
theorem ofTextAt_space {c : Char} (h : Text.isSpace c = true) (start : Nat) (rest : Text) :
    ofTextAt start (c :: rest) = ofTextAt (start + 1) rest := by
  rw [ofTextAt, if_pos h]

/-- Anything but a space gives one token, and reading goes on behind it. -/
theorem ofTextAt_lexeme {c : Char} (h : Text.isSpace c = false) (start : Nat) (rest : Text) :
    ofTextAt start (c :: rest) =
      (Lexeme.scan c rest).toToken start ::
        ofTextAt (start + (Lexeme.scan c rest).width)
          ((c :: rest).drop (Lexeme.scan c rest).width) := by
  rw [ofTextAt, if_neg (by simp [h])]

end Token

end TapeMachine
