import TapeMachine.Text.Decimal
import TapeMachine.Toml.Value

/-!
# TapeMachine.Toml.Scalar

Strings, numbers, dates and times of a configuration document.

Every reader takes the text from its first character on and gives what it read and the text behind
it.

* `Scalar.quotedString` — the four kinds of strings.
* `Scalar.dateTime?`, `Scalar.localTime?` — dates and times; of a date it is checked that it
  exists.
* `Scalar.number?` — integers in four bases, and fractional numbers.
-/

namespace TapeMachine.Toml

/-- Blanks within a line. -/
def isBlank (c : Char) : Bool :=
  c == ' ' || c == '\t'

/-- Blanks and line feeds. -/
def isLayout (c : Char) : Bool :=
  isBlank c || c == '\n'

/-- Control characters. Apart from the tab, and the line feed in strings of several lines, they
stand nowhere in a document. -/
def isControl (c : Char) : Bool :=
  c.toNat < 32 || c.toNat == 127

/-- Drops the blanks at the head of a text. -/
def skipBlanks (text : Text) : Text :=
  text.dropWhile isBlank

/-- The text behind a given beginning, if it has that. -/
def after? (beginning : String) (text : Text) : Option Text :=
  if beginning.toList.isPrefixOf text then some (text.drop beginning.length) else none

namespace Scalar

/-! ### Strings -/

/-- Whether a character may stand in a string. -/
def allowedIn (multiline : Bool) (c : Char) : Bool :=
  !isControl c || c == '\t' || (multiline && c == '\n')

/-- A text up to three quotes in a row, and the text behind those. -/
def splitAtTriple (quote : Char) : Text → Option (Text × Text)
  | [] => none
  | c :: rest =>
    if c == quote && rest.take 2 == [quote, quote] then some ([], rest.drop 2)
    else (fun split => (c :: split.1, split.2)) <$> splitAtTriple quote rest

/-- The value of a hexadecimal digit. -/
def hexValue? (c : Char) : Option Nat :=
  if c.isDigit then some (c.toNat - '0'.toNat)
  else if 'a' ≤ c && c ≤ 'f' then some (c.toNat - 'a'.toNat + 10)
  else if 'A' ≤ c && c ≤ 'F' then some (c.toNat - 'A'.toNat + 10)
  else none

/-- The character whose number is written in the given hexadecimal digits. -/
def hexChar? (digits : Text) : Option Char := do
  let values ← digits.mapM hexValue?
  let number := Decimal.ofDigits 16 values
  if number.isValidChar then some (Char.ofNat number) else none

/-- The character that a letter behind a backslash stands for. -/
def escape? : Char → Option Char
  | 'b' => some '\x08'
  | 't' => some '\t'
  | 'n' => some '\n'
  | 'f' => some '\x0c'
  | 'r' => some '\r'
  | '"' => some '"'
  | '\\' => some '\\'
  | _ => none

/-- Puts a character in front of what was read. -/
def push (c : Char) (read : Except Error (Text × Text)) : Except Error (Text × Text) :=
  read.map fun done => (c :: done.1, done.2)

/-- A string in which backslashes have a meaning, behind its opening quotes. In a string of
several lines a backslash at the end of a line takes with it all blanks and line feeds that
follow; `skipping` tells that they are being skipped. -/
def basicBody (multiline : Bool) : Bool → Text → Except Error (Text × Text)
  | _, [] => .error .malformed
  | _, '"' :: '"' :: '"' :: rest =>
    if multiline then .ok ([], rest) else .ok ([], '"' :: '"' :: rest)
  | _, '"' :: rest =>
    if multiline then push '"' (basicBody multiline false rest) else .ok ([], rest)
  | _, '\\' :: 'u' :: a :: b :: c :: d :: rest =>
    match hexChar? [a, b, c, d] with
    | some char => push char (basicBody multiline false rest)
    | none => .error .malformed
  | _, '\\' :: 'U' :: a :: b :: c :: d :: e :: f :: g :: h :: rest =>
    match hexChar? [a, b, c, d, e, f, g, h] with
    | some char => push char (basicBody multiline false rest)
    | none => .error .malformed
  | _, '\\' :: c :: rest =>
    match escape? c with
    | some char => push char (basicBody multiline false rest)
    | none =>
      if multiline && (c == '\n' || (isBlank c && (skipBlanks rest).head? == some '\n')) then
        basicBody multiline true rest
      else .error .malformed
  | skipping, c :: rest =>
    if skipping && isLayout c then basicBody multiline true rest
    else if c != '\\' && allowedIn multiline c then push c (basicBody multiline false rest)
    else .error .malformed

/-- A string in which backslashes have none, on one line, behind its opening quote. -/
def literalBody (text : Text) : Except Error (Text × Text) :=
  let body := text.takeWhile (· != '\'')
  if body.length < text.length && body.all (allowedIn false) then
    .ok (body, text.drop (body.length + 1))
  else .error .malformed

/-- A string in which backslashes have none, on several lines, behind its opening quotes. -/
def multilineLiteralBody (text : Text) : Except Error (Text × Text) :=
  match splitAtTriple '\'' text with
  | some (body, rest) => if body.all (allowedIn true) then .ok (body, rest) else .error .malformed
  | none => .error .malformed

/-- A line feed right behind the opening quotes of a string of several lines does not count. -/
def skipFirstFeed : Text → Text
  | '\n' :: rest => rest
  | text => text

/-- Up to two more quotes right behind the closing ones of a string of several lines belong to the
string. -/
def takeExtraQuotes (quote : Char) (body rest : Text) : Text × Text :=
  let extra := (rest.take 2).takeWhile (· == quote)
  (body ++ extra, rest.drop extra.length)

/-- A string of several lines, given its body reader. -/
def multilineString (quote : Char) (body : Text → Except Error (Text × Text)) (text : Text) :
    Except Error (Text × Text) :=
  (body (skipFirstFeed text)).map fun done => takeExtraQuotes quote done.1 done.2

/-- A string on one line, if the text starts with one. -/
def lineString? : Text → Option (Except Error (Text × Text))
  | '"' :: rest => some (basicBody false false rest)
  | '\'' :: rest => some (literalBody rest)
  | _ => none

/-- A string of any kind, if the text starts with one. -/
def quotedString? : Text → Option (Except Error (Text × Text))
  | '"' :: '"' :: '"' :: rest => some (multilineString '"' (basicBody true false) rest)
  | '\'' :: '\'' :: '\'' :: rest => some (multilineString '\'' multilineLiteralBody rest)
  | text => lineString? text

/-! ### Dates and times -/

/-- A number of exactly `count` digits. -/
def fixedNumber? (count : Nat) (text : Text) : Option (Nat × Text) :=
  let digits := text.take count
  if digits.length = count && digits.all Char.isDigit then
    some (Decimal.ofDigits 10 (digits.map fun c => c.toNat - '0'.toNat), text.drop count)
  else none

/-- A number of two digits up to a bound. -/
def twoDigits? (bound : Nat) (text : Text) : Option (Nat × Text) := do
  let (value, rest) ← fixedNumber? 2 text
  if value ≤ bound then some (value, rest) else none

/-- The text behind a character. -/
def mark? (mark : Char) : Text → Option Text
  | c :: rest => if c == mark then some rest else none
  | [] => none

/-- The text behind the fraction of a second, if there is one. -/
def skipFraction (text : Text) : Text :=
  match text with
  | '.' :: c :: rest => if c.isDigit then rest.dropWhile Char.isDigit else text
  | _ => text

/-- The text behind a time of day. -/
def localTime? (text : Text) : Option Text := do
  let (_, rest) ← twoDigits? 23 text
  let (_, rest) ← twoDigits? 59 (← mark? ':' rest)
  let (_, rest) ← twoDigits? 59 (← mark? ':' rest)
  return skipFraction rest

/-- The text behind the offset of a time, if there is one. -/
def skipOffset (text : Text) : Text :=
  let offset? (rest : Text) : Option Text := do
    let (_, rest) ← twoDigits? 23 rest
    let (_, rest) ← twoDigits? 59 (← mark? ':' rest)
    return rest
  match text with
  | 'Z' :: rest | 'z' :: rest => rest
  | '+' :: rest | '-' :: rest => (offset? rest).getD text
  | _ => text

/-- The text behind the time of a date, if there is one. -/
def skipTime (text : Text) : Text :=
  match text with
  | c :: rest =>
    if c == 'T' || c == 't' || c == ' ' then
      match localTime? rest with
      | some behind => skipOffset behind
      | none => text
    else text
  | [] => text

/-- The number of days of a month. -/
def daysIn (year month : Nat) : Nat :=
  if month = 2 then
    if year % 4 = 0 && (year % 100 ≠ 0 || year % 400 = 0) then 29 else 28
  else if month = 4 || month = 6 || month = 9 || month = 11 then 30
  else 31

/-- A year, a month up to twelve and a day up to 31, neither of them zero. -/
def date? (text : Text) : Option ((Nat × Nat × Nat) × Text) := do
  let (year, rest) ← fixedNumber? 4 text
  let (month, rest) ← twoDigits? 12 (← mark? '-' rest)
  let (day, rest) ← twoDigits? 31 (← mark? '-' rest)
  if month = 0 || day = 0 then none else some ((year, month, day), rest)

/-- A date, with or without a time, if the text starts with one. The date must exist. -/
def dateTime? (text : Text) : Option (Except Error (Value × Text)) :=
  (date? text).map fun ((year, month, day), rest) =>
    if 1 ≤ year && day ≤ daysIn year month then .ok (.other, skipTime rest)
    else .error .malformed

/-! ### Numbers -/

/-- The digits at the head of a text, with single underscores between them, and the text behind. -/
def digitRun (isDigit : Char → Bool) : Text → Text × Text
  | '_' :: rest => ([], '_' :: rest)
  | c :: '_' :: d :: rest =>
    if isDigit c then
      if isDigit d then
        let more := digitRun isDigit (d :: rest)
        (c :: more.1, more.2)
      else ([c], '_' :: d :: rest)
    else ([], c :: '_' :: d :: rest)
  | c :: rest =>
    if isDigit c then
      let more := digitRun isDigit rest
      (c :: more.1, more.2)
    else ([], c :: rest)
  | [] => ([], [])

/-- Behind `0`, a letter for the base and digits. -/
def basedInteger? (text : Text) : Option (Int × Text) :=
  let inBase (base : Nat) (rest : Text) : Option (Int × Text) :=
    let isDigit (c : Char) : Bool := (hexValue? c).any (· < base)
    let (digits, behind) := digitRun isDigit rest
    if digits.isEmpty then none
    else some ((Decimal.ofDigits base (digits.filterMap hexValue?) : Nat), behind)
  match text with
  | '0' :: 'x' :: rest => inBase 16 rest
  | '0' :: 'o' :: rest => inBase 8 rest
  | '0' :: 'b' :: rest => inBase 2 rest
  | _ => none

/-- The text behind a fraction, if there is one. -/
def fraction? : Text → Option Text
  | '.' :: rest =>
    let (digits, behind) := digitRun Char.isDigit rest
    if digits.isEmpty then none else some behind
  | _ => none

/-- The text behind an exponent, if there is one. -/
def exponent? (text : Text) : Option Text :=
  let digits? (rest : Text) : Option Text :=
    let (digits, behind) := digitRun Char.isDigit rest
    if digits.isEmpty then none else some behind
  match text with
  | c :: rest =>
    if c == 'e' || c == 'E' then
      match rest with
      | '+' :: rest | '-' :: rest => digits? rest
      | rest => digits? rest
    else none
  | [] => none

/-- The digits of a decimal number without a sign. A leading zero stands alone. -/
def decimalDigits (text : Text) : Text × Text :=
  match text with
  | '0' :: rest => (['0'], rest)
  | rest => digitRun Char.isDigit rest

/-- A decimal number, whole or fractional, behind its sign. -/
def decimal? (negative : Bool) (text : Text) : Option (Except Error (Value × Text)) :=
  let (digits, rest) := decimalDigits text
  if digits.isEmpty then none
  else
    let behindFraction := fraction? rest
    let behindExponent := exponent? (behindFraction.getD rest)
    match behindFraction, behindExponent with
    | none, none =>
      if digits.length ≤ Decimal.maxDigits then
        let value : Int := (Decimal.ofDigits 10 (digits.map fun c => c.toNat - '0'.toNat) : Nat)
        some (.ok (.integer (if negative then -value else value), rest))
      else some (.error (.longInteger digits.length))
    | _, some behind => some (.ok (.other, behind))
    | some behind, none => some (.ok (.other, behind))

/-- A number, if the text starts with one. -/
def number? (text : Text) : Option (Except Error (Value × Text)) :=
  match basedInteger? text with
  | some (value, rest) => some (.ok (.integer value, rest))
  | none =>
    match text with
    | '-' :: rest => decimal? true rest
    | '+' :: rest => decimal? false rest
    | rest => decimal? false rest

/-- The numbers that are written as words. -/
def specialNumber? (text : Text) : Option (Except Error (Value × Text)) :=
  ["inf", "nan", "-inf", "+inf", "-nan", "+nan"].findSome? fun word =>
    (after? word text).map fun rest => .ok (.other, rest)

/-- A truth value, if the text starts with one. -/
def boolean? (text : Text) : Option (Except Error (Value × Text)) :=
  match after? "true" text with
  | some rest => some (.ok (.boolean true, rest))
  | none => (after? "false" text).map fun rest => .ok (.boolean false, rest)

/-- A value that is neither an array nor a table. -/
def read (text : Text) : Except Error (Value × Text) :=
  let string? := (quotedString? text).map fun (read : Except Error (Text × Text)) =>
    read.map fun done => (Value.string (String.ofList done.1), done.2)
  let time? := (localTime? text).map fun rest => Except.ok (Value.other, rest)
  let found := string?
    |>.or (boolean? text)
    |>.or (dateTime? text)
    |>.or time?
    |>.or (number? text)
    |>.or (specialNumber? text)
  found.getD (.error .malformed)

end Scalar

end TapeMachine.Toml
