import TapeMachine.Text.Basic

/-!
# TapeMachine.Text.Units

The length of a text in the code units of an encoding.
-/

namespace TapeMachine

/-- The encodings of texts. -/
inductive Encoding where
  /-- Units of one byte. -/
  | utf8
  /-- Units of two bytes. -/
  | utf16
  /-- Units of four bytes. -/
  | utf32
deriving Repr, DecidableEq

namespace Encoding

/-- The number of units of a character. -/
def charUnits (encoding : Encoding) (c : Char) : Nat :=
  match encoding with
  | .utf8 => c.utf8Size
  | .utf16 => if c.toNat < 0x10000 then 1 else 2
  | .utf32 => 1

/-- The number of units of a text. -/
def units (encoding : Encoding) : Text → Nat
  | [] => 0
  | c :: rest => encoding.charUnits c + units encoding rest

@[simp] theorem units_nil (encoding : Encoding) : encoding.units [] = 0 := rfl

@[simp] theorem units_cons (encoding : Encoding) (c : Char) (text : Text) :
    encoding.units (c :: text) = encoding.charUnits c + encoding.units text := rfl

@[simp] theorem units_append (encoding : Encoding) (left right : Text) :
    encoding.units (left ++ right) = encoding.units left + encoding.units right := by
  induction left with
  | nil => simp
  | cons c rest ih => simp [ih, Nat.add_assoc]

/-- In units of four bytes every character is one. -/
@[simp] theorem units_utf32 (text : Text) : Encoding.utf32.units text = text.length := by
  induction text with
  | nil => rfl
  | cons c rest ih => simp [charUnits, ih, Nat.add_comm]

/-- Every character takes a unit. -/
theorem charUnits_pos (encoding : Encoding) (c : Char) : 0 < encoding.charUnits c := by
  cases encoding with
  | utf8 => exact Char.utf8Size_pos c
  | utf16 => simp only [charUnits]; split <;> decide
  | utf32 => exact Nat.one_pos

end Encoding

end TapeMachine
