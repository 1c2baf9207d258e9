import TapeMachine.Table

/-!
# TapeMachine.Toml.Value

Values of a configuration document.

A document is a table of values. Strings, integers and booleans are kept, since settings are made
of them; fractional numbers, dates and times are only recognised.

* `Toml.Tree.modifyAt` — changes the table behind a row of keys, making tables on the way.
-/

namespace TapeMachine.Toml

/-- Why a document cannot be read. -/
inductive Error where
  /-- The document breaks the rules of the format. -/
  | malformed
  /-- A decimal integer has too many digits; this is their number. -/
  | longInteger (digits : Nat)
deriving Repr, DecidableEq

/-- The text of an error. -/
def Error.message : Error → String
  | .malformed => "invalid document"
  | .longInteger digits =>
    "Exceeds the limit (4300 digits) for integer string conversion: value has " ++ toString digits
      ++ " digits; use sys.set_int_max_str_digits() to increase the limit"

/-- A value. -/
inductive Value where
  /-- A text. -/
  | string (text : String)
  /-- A whole number. -/
  | integer (value : Int)
  /-- True or false. -/
  | boolean (value : Bool)
  /-- A fractional number, a date or a time. -/
  | other
  /-- Some values in a row. -/
  | array (items : List Value)
  /-- Values by key. -/
  | table (entries : List (String × Value))
deriving Repr

/-- A table of values. -/
abbrev Tree := Table Value

namespace Value

/-- The entries of a table, and nothing for any other value. -/
def entries : Value → Tree
  | .table entries => entries
  | _ => []

/-- Whether a value is written with brackets or braces and so is complete once it was read. -/
def isCompound : Value → Bool
  | .array _ | .table _ => true
  | _ => false

end Value

namespace Tree

/-- Gives a key a value, in place of the one it has. -/
def set (tree : Tree) (key : String) (value : Value) : Tree :=
  if tree.has key then tree.map fun entry => if entry.1 == key then (key, value) else entry
  else tree.add key value

/-- Changes the table behind a row of keys. Tables that are missing on the way are made. Where an
array stands on the way, its last item is meant, unless arrays are closed; anything else but a
table is in the way. -/
def modifyAt (openArrays : Bool) (change : Tree → Except Error Tree) :
    List String → Tree → Except Error Tree
  | [], tree => change tree
  | key :: keys, tree =>
    match tree.lookup key with
    | none => do
      let inner ← modifyAt openArrays change keys []
      return tree.set key (.table inner)
    | some (.table inner) => do
      let inner ← modifyAt openArrays change keys inner
      return tree.set key (.table inner)
    | some (.array items) =>
      match openArrays, items.getLast? with
      | true, some (.table inner) => do
        let inner ← modifyAt openArrays change keys inner
        return tree.set key (.array (items.dropLast ++ [.table inner]))
      | _, _ => .error .malformed
    | some _ => .error .malformed

/-- Enters a key that the table must not have yet. -/
def enter (key : String) (value : Value) (tree : Tree) : Except Error Tree :=
  if tree.has key then .error .malformed else .ok (tree.add key value)

/-- Adds an empty table to the array of a key, which is made if it is missing. -/
def appendTable (key : String) (tree : Tree) : Except Error Tree :=
  match tree.lookup key with
  | none => .ok (tree.add key (.array [.table []]))
  | some (.array items) => .ok (tree.set key (.array (items ++ [.table []])))
  | some _ => .error .malformed

end Tree

end TapeMachine.Toml
