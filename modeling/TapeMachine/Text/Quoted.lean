import TapeMachine.Text.Printable

/-!
# TapeMachine.Text.Quoted

Texts between quotes.

A text is shown between apostrophes, or between quotation marks if it holds an apostrophe and no
quotation mark. Inside, a backslash and the quote in use get a backslash in front; tab, line feed
and carriage return are written `\t`, `\n` and `\r`; any other character that is not printable is
written by its number, in two, four or eight hexadecimal digits behind `\x`, `\u` or `\U`,
whichever is the shortest that fits.
-/

namespace TapeMachine.Text

/-- The quote to put around a text. -/
def quoteFor (text : Text) : Char :=
  if text.contains '\'' && !text.contains '"' then '"' else '\''

/-- The number `n` in lower-case hexadecimal, with zeros in front up to `width` digits. -/
def hexadecimal (width n : Nat) : Text :=
  let digits := Nat.toDigits 16 n
  List.replicate (width - digits.length) '0' ++ digits

/-- A character between quotes. -/
def quoteChar (mark c : Char) : Text :=
  if c == mark || c == '\\' then ['\\', c]
  else if c == '\t' then ['\\', 't']
  else if c == '\n' then ['\\', 'n']
  else if c == '\r' then ['\\', 'r']
  else if isPrintable c then [c]
  else if c.toNat < 0x100 then '\\' :: 'x' :: hexadecimal 2 c.toNat
  else if c.toNat < 0x10000 then '\\' :: 'u' :: hexadecimal 4 c.toNat
  else '\\' :: 'U' :: hexadecimal 8 c.toNat

/-- A text between quotes. -/
def quoted (text : Text) : Text :=
  let mark := quoteFor text
  mark :: text.flatMap (quoteChar mark) ++ [mark]

end TapeMachine.Text

namespace TapeMachine

/-- A string between quotes. -/
def quoted (string : String) : String :=
  String.ofList (Text.quoted string.toList)

end TapeMachine
