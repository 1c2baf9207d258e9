import TapeMachine.Text.Basic

/-!
# TapeMachine.Text.Decimal

Whole numbers as people write them.

`Decimal.read?` reads an optional sign and decimal digits, between which single underscores may
stand, with blank characters around. A text that holds only ASCII characters is read with the
blank characters and the digits of ASCII. In any other text the blank characters and the decimal
digits of all scripts count as well (Unicode 14).

Numbers of more than `Decimal.maxDigits` digits are refused.
-/

namespace TapeMachine.Decimal

/-- The zeros of the decimal digits of all scripts. The nine code points behind each are its other
digits. -/
def zeros : List Nat :=
  [
    0x30, 0x660, 0x6f0, 0x7c0, 0x966, 0x9e6, 0xa66, 0xae6, 0xb66, 0xbe6, 0xc66, 0xce6, 0xd66,
    0xde6, 0xe50, 0xed0, 0xf20, 0x1040, 0x1090, 0x17e0, 0x1810, 0x1946, 0x19d0, 0x1a80, 0x1a90,
    0x1b50, 0x1bb0, 0x1c40, 0x1c50, 0xa620, 0xa8d0, 0xa900, 0xa9d0, 0xa9f0, 0xaa50, 0xabf0, 0xff10,
    0x104a0, 0x10d30, 0x11066, 0x110f0, 0x11136, 0x111d0, 0x112f0, 0x11450, 0x114d0, 0x11650,
    0x116c0, 0x11730, 0x118e0, 0x11950, 0x11c50, 0x11d50, 0x11da0, 0x16a60, 0x16ac0, 0x16b50,
    0x1d7ce, 0x1d7d8, 0x1d7e2, 0x1d7ec, 0x1d7f6, 0x1e140, 0x1e2f0, 0x1e950, 0x1fbf0
  ]

/-- The value of a decimal digit of any script. -/
def digitValue? (c : Char) : Option Nat :=
  (zeros.find? fun start => start ≤ c.toNat && c.toNat < start + 10).map (c.toNat - ·)

/-- Whether a character is a decimal digit of any script. -/
def isDigit (c : Char) : Bool :=
  (digitValue? c).isSome

/-- The blank characters that may stand around a number: those of ASCII. -/
def isAsciiBlank (c : Char) : Bool :=
  (9 ≤ c.toNat && c.toNat ≤ 13) || c == ' '

/-- The blank characters beyond ASCII. -/
def isWideBlank (c : Char) : Bool :=
  c.toNat ∈ [0x85, 0xa0, 0x1680, 0x2000, 0x2001, 0x2002, 0x2003, 0x2004, 0x2005, 0x2006, 0x2007,
    0x2008, 0x2009, 0x200a, 0x2028, 0x2029, 0x202f, 0x205f, 0x3000]

/-- A character as ASCII text has it: a blank for a blank character, `0` to `9` for a digit. Other
characters beyond ASCII stay, and are no part of a number. -/
def toAscii (c : Char) : Char :=
  if c.toNat < 127 then c
  else if isWideBlank c then ' '
  else
    match digitValue? c with
    | some value => Char.ofNat ('0'.toNat + value)
    | none => c

/-- The most digits a number may have. -/
def maxDigits : Nat := 4300

/-- The digits of a number: each underscore stands between two digits. -/
def digits? : Text → Option (List Nat)
  | [] => none
  | [c] => if c.isDigit then some [c.toNat - '0'.toNat] else none
  | c :: '_' :: rest => if c.isDigit then ((c.toNat - '0'.toNat) :: ·) <$> digits? rest else none
  | c :: rest => if c.isDigit then ((c.toNat - '0'.toNat) :: ·) <$> digits? rest else none

/-- The number with the given digits. -/
def ofDigits (base : Nat) (digits : List Nat) : Nat :=
  digits.foldl (fun value digit => base * value + digit) 0

/-- Reads digits without a sign. -/
def readUnsigned? (text : Text) : Option Nat := do
  let digits ← digits? text
  if digits.length ≤ maxDigits then some (ofDigits 10 digits) else none

/-- Reads digits with an optional sign. -/
def readSigned? : Text → Option Int
  | '-' :: rest => (fun (n : Nat) => -(n : Int)) <$> readUnsigned? rest
  | '+' :: rest => (fun (n : Nat) => (n : Int)) <$> readUnsigned? rest
  | rest => (fun (n : Nat) => (n : Int)) <$> readUnsigned? rest

/-- Reads a whole number. -/
def read? (text : Text) : Option Int :=
  let ascii := if text.all (·.toNat < 128) then text else text.map toAscii
  readSigned? (Text.trim isAsciiBlank ascii)

end TapeMachine.Decimal
