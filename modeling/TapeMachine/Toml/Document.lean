import TapeMachine.Toml.Scalar

/-!
# TapeMachine.Toml.Document

Configuration documents.

A document is a row of statements, one a line: a header opens a table, or adds one to an array of
tables, and an assignment enters a value into the table that was opened last.

* `Document.value` — a value, arrays and inline tables included.
* `Document.statement` — one statement.
* `parse` — a whole document.

Design points:

* Which tables may still be opened or extended is kept beside the tree, as lists of key rows:
  `opened` holds the tables that a header opened, `dotted` those that dotted keys made since the
  last header, and `closed` the values that were complete when they were read. A closed value
  closes all that is below it.
* The readers that call each other take fuel. A text of `n` characters never needs more than
  `2 * n + 2`.
-/

namespace TapeMachine.Toml

/-- A row of keys, from the outermost table inwards. -/
abbrev Keys := List String

/-! ### Layout and keys -/

/-- Skips a comment, if there is one, up to the line feed. -/
def skipComment : Text → Except Error Text
  | '#' :: rest =>
    if (rest.takeWhile (· != '\n')).all (Scalar.allowedIn false) then
      .ok (rest.dropWhile (· != '\n'))
    else .error .malformed
  | text => .ok text

/-- Skips blanks, line feeds and comments. -/
def skipLayout : Nat → Text → Except Error Text
  | 0, text => .ok text
  | fuel + 1, text =>
    match text.dropWhile isLayout with
    | '#' :: rest => do
      let behind ← skipComment ('#' :: rest)
      skipLayout fuel behind
    | behind => .ok behind

/-- The characters of a key that is written without quotes. -/
def isBareKeyChar (c : Char) : Bool :=
  c.isAlphanum || c == '-' || c == '_'

/-- One part of a key. -/
def keyPart (text : Text) : Except Error (String × Text) :=
  let bare := text.takeWhile isBareKeyChar
  if bare.isEmpty then
    match Scalar.lineString? text with
    | some read => read.map fun done => (String.ofList done.1, done.2)
    | none => .error .malformed
  else .ok (String.ofList bare, text.drop bare.length)

/-- A key of one or more parts with points between them, and the blanks behind it. -/
def key : Nat → Text → Except Error (Keys × Text)
  | 0, _ => .error .malformed
  | fuel + 1, text =>
    match keyPart text with
    | .error error => .error error
    | .ok (part, rest) =>
      match skipBlanks rest with
      | '.' :: more => (key fuel (skipBlanks more)).map fun done => (part :: done.1, done.2)
      | behind => .ok ([part], behind)

namespace Document

/-! ### Values -/

/-- Whether a row of keys is at or below one of some closed ones. -/
def isClosed (closed : List Keys) (keys : Keys) : Bool :=
  closed.any (·.isPrefixOf keys)

/-- An inline table while it is read. -/
structure Inline where
  /-- The entries so far. -/
  tree : Tree
  /-- The entries that nothing may be added to. -/
  closed : List Keys

/-- Enters a value into an inline table. -/
def Inline.enter (inline : Inline) (keys : Keys) (value : Value) : Except Error Inline := do
  if isClosed inline.closed keys then throw .malformed
  let tree ← Tree.modifyAt false (Tree.enter (keys.getLastD "") value) keys.dropLast inline.tree
  return { tree, closed := if value.isCompound then keys :: inline.closed else inline.closed }

mutual

/-- A value. -/
def value : Nat → Text → Except Error (Value × Text)
  | 0, _ => .error .malformed
  | fuel + 1, '[' :: rest => do
    let rest ← skipLayout rest.length rest
    match rest with
    | ']' :: behind => return (.array [], behind)
    | _ => do
      let (items, behind) ← items fuel rest
      return (.array items, behind)
  | fuel + 1, '{' :: rest =>
    match skipBlanks rest with
    | '}' :: behind => .ok (.table [], behind)
    | rest => do
      let (tree, behind) ← fields fuel { tree := [], closed := [] } rest
      return (.table tree, behind)
  | _ + 1, text => Scalar.read text

/-- The items of an array, up to its closing bracket. A comma may stand behind the last one. -/
def items : Nat → Text → Except Error (List Value × Text)
  | 0, _ => .error .malformed
  | fuel + 1, text => do
    let (first, rest) ← value fuel text
    let rest ← skipLayout rest.length rest
    match rest with
    | ']' :: behind => return ([first], behind)
    | ',' :: rest => do
      let rest ← skipLayout rest.length rest
      match rest with
      | ']' :: behind => return ([first], behind)
      | _ => do
        let (more, behind) ← items fuel rest
        return (first :: more, behind)
    | _ => throw .malformed

/-- The fields of an inline table, up to its closing brace. -/
def fields : Nat → Inline → Text → Except Error (Tree × Text)
  | 0, _, _ => .error .malformed
  | fuel + 1, inline, text => do
    let (keys, rest) ← key (text.length + 1) text
    match rest with
    | '=' :: rest => do
      let (entry, rest) ← value fuel (skipBlanks rest)
      let inline ← inline.enter keys entry
      match skipBlanks rest with
      | '}' :: behind => return (inline.tree, behind)
      | ',' :: rest => fields fuel inline (skipBlanks rest)
      | _ => throw .malformed
    | _ => throw .malformed

end

end Document

/-! ### Statements -/

/-- A document while it is read. -/
structure Document where
  /-- The values so far. -/
  tree : Tree
  /-- The table that was opened last. -/
  header : Keys
  /-- The tables that no header may open again. -/
  opened : List Keys
  /-- The tables that dotted keys made since the last header. -/
  dotted : List Keys
  /-- The values that nothing may be added to. -/
  closed : List Keys

namespace Document

/-- The document without statements. -/
def empty : Document :=
  { tree := [], header := [], opened := [], dotted := [], closed := [] }

/-- From a header on, the tables that dotted keys made before it count as opened. -/
def turnPage (document : Document) : Document :=
  { document with opened := document.dotted ++ document.opened, dotted := [] }

/-- Opens a table. -/
def openTable (document : Document) (keys : Keys) : Except Error Document := do
  if document.opened.contains keys || isClosed document.closed keys then throw .malformed
  let tree ← Tree.modifyAt true .ok keys document.tree
  return { document with tree, header := keys, opened := keys :: document.opened }

/-- Adds a table to an array of tables. What is known of the tables below the last item does not
hold of the new one. -/
def openItem (document : Document) (keys : Keys) : Except Error Document := do
  if isClosed document.closed keys then throw .malformed
  let fresh (rows : List Keys) : List Keys := rows.filter fun row => !keys.isPrefixOf row
  let tree ← Tree.modifyAt true (Tree.appendTable (keys.getLastD "")) keys.dropLast document.tree
  return { document with
    tree, header := keys, opened := keys :: fresh document.opened, closed := fresh document.closed }

/-- The rows that a dotted key passes on its way from a header. -/
def passed (header keys : Keys) : List Keys :=
  (List.range (keys.length - 1)).map fun count => header ++ keys.take (count + 1)

/-- Enters a value into the table that was opened last. -/
def assign (document : Document) (keys : Keys) (entry : Value) : Except Error Document := do
  let way := passed document.header keys
  let parent := document.header ++ keys.dropLast
  if way.any document.opened.contains || isClosed document.closed parent then throw .malformed
  let tree ← Tree.modifyAt true (Tree.enter (keys.getLastD "") entry) parent document.tree
  return { document with
    tree
    dotted := way ++ document.dotted
    closed :=
      if entry.isCompound then (document.header ++ keys) :: document.closed else document.closed }

/-- A header that adds a table to an array, behind its opening brackets. -/
def itemHeader (document : Document) (text : Text) : Except Error (Document × Text) := do
  let (keys, rest) ← key (text.length + 1) (skipBlanks text)
  let document ← document.turnPage.openItem keys
  match rest with
  | ']' :: ']' :: behind => return (document, behind)
  | _ => throw .malformed

/-- A header that opens a table, behind its opening bracket. -/
def tableHeader (document : Document) (text : Text) : Except Error (Document × Text) := do
  let (keys, rest) ← key (text.length + 1) (skipBlanks text)
  let document ← document.turnPage.openTable keys
  match rest with
  | ']' :: behind => return (document, behind)
  | _ => throw .malformed

/-- An assignment. -/
def assignment (document : Document) (text : Text) : Except Error (Document × Text) := do
  let (keys, rest) ← key (text.length + 1) text
  match rest with
  | '=' :: rest => do
    let (entry, behind) ← value (2 * rest.length + 2) (skipBlanks rest)
    let document ← document.assign keys entry
    return (document, behind)
  | _ => throw .malformed

/-- The statement at the head of a text that is neither empty nor blank. -/
def statement (document : Document) : Text → Except Error (Document × Text)
  | '[' :: '[' :: rest => document.itemHeader rest
  | '[' :: rest => document.tableHeader rest
  | '#' :: rest => .ok (document, '#' :: rest)
  | text => document.assignment text

/-- The statements of a text, each up to the end of its line. -/
def statements : Nat → Document → Text → Except Error Document
  | 0, document, _ => .ok document
  | fuel + 1, document, text =>
    match skipBlanks text with
    | [] => .ok document
    | '\n' :: rest => statements fuel document rest
    | text => do
      let (document, rest) ← document.statement text
      let rest ← skipComment (skipBlanks rest)
      match rest with
      | [] => return document
      | '\n' :: rest => statements fuel document rest
      | _ => throw .malformed

end Document

/-- Reads a line feed for a carriage return and a line feed. -/
def joinLineEnds : Text → Text
  | '\r' :: '\n' :: rest => '\n' :: joinLineEnds rest
  | c :: rest => c :: joinLineEnds rest
  | [] => []

/-- Reads a document. -/
def parse (text : Text) : Except Error Tree := do
  let text := joinLineEnds text
  let document ← Document.statements (text.length + 1) Document.empty text
  return document.tree

end TapeMachine.Toml
