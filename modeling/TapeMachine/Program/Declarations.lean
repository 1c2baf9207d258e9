import TapeMachine.Diagnostic.Basic
import TapeMachine.Table

/-!
# TapeMachine.Program.Declarations

The names a program declares.

States may refer to states that are declared further down, so names are collected before blocks
are read. `Declaration.ofTokens` walks along the tokens and picks out the declarations among them,
wherever they stand; `Declaration.bindings` enters them in a table, in which the first declaration
of a name wins, and `Declaration.repeated` reports the later ones.

Design points:

* A declaration that breaks off leaves the walk at the token that did not fit. If that token
  starts the next definition, the walk goes on with it (`resume`), otherwise behind it.
* `Declaration.readAt_isSuffix` says that a step of the walk never goes back, which is why the
  walk ends.
-/

namespace TapeMachine

/-- What a name stands for. -/
inductive Binding where
  /-- A state. -/
  | state
  /-- A character constant. -/
  | character (value : String)
  /-- A string constant. -/
  | string (value : String)
deriving Repr, DecidableEq

namespace Binding

/-- Whether a name stands for a state. -/
def isState : Binding → Bool
  | .state => true
  | _ => false

/-- The symbol a name stands for; only character constants have one. -/
def symbol? : Binding → Option String
  | .character value => some value
  | _ => none

/-- The constant that a literal token makes. -/
def ofLiteral? (token : Token) : Option Binding :=
  match token.kind with
  | .character => some (.character token.value)
  | .string => some (.string token.value)
  | _ => none

end Binding

/-- The declared names, in order of declaration. -/
abbrev Bindings := Table Binding

/-- Whether a name is declared as a state. -/
def Bindings.isState (bindings : Bindings) (name : String) : Bool :=
  (bindings.lookup name).any Binding.isState

/-- A declaration: the token of the name and what it stands for. -/
structure Declaration where
  /-- The token of the declared name. -/
  name : Token
  /-- What the name stands for. -/
  binding : Binding
deriving Repr, DecidableEq

namespace Declaration

/-! ### Walking along the tokens -/

/-- Where the walk goes on after a declaration that broke off at the head of the tokens. -/
def resume : List Token → List Token
  | [] => []
  | token :: tokens => if token.startsDefinition then token :: tokens else tokens

/-- Reads the name of a state, behind the keyword. -/
def readState : List Token → Option Declaration × List Token
  | [] => (none, [])
  | name :: tokens =>
    if name.kind = .identifier then (some { name, binding := .state }, tokens)
    else (none, resume (name :: tokens))

/-- Reads the literal of a constant, behind its name. -/
def readLiteral (name : Token) : List Token → Option Declaration × List Token
  | [] => (none, [])
  | literal :: tokens =>
    match Binding.ofLiteral? literal with
    | some binding => (some { name, binding }, tokens)
    | none => (none, resume (literal :: tokens))

/-- Reads a constant, behind the keyword. -/
def readConstant : List Token → Option Declaration × List Token
  | [] => (none, [])
  | name :: tokens =>
    if name.kind = .identifier then readLiteral name tokens else (none, resume (name :: tokens))

/-- Reads a state marked as initial, behind the mark. -/
def readInitial : List Token → Option Declaration × List Token
  | [] => (none, [])
  | token :: tokens =>
    if token.kind = .state then readState tokens else (none, resume (token :: tokens))

/-- One step of the walk: the declaration that starts with the given token, if there is one, and
the tokens to go on with. -/
def readAt (token : Token) (tokens : List Token) : Option Declaration × List Token :=
  match token.kind with
  | .define => readConstant tokens
  | .initial => readInitial tokens
  | .state => readState tokens
  | _ => (none, tokens)

theorem resume_isSuffix (tokens : List Token) : resume tokens <:+ tokens := by
  cases tokens with
  | nil => exact List.suffix_refl _
  | cons token tokens =>
    rw [resume]
    split
    · exact List.suffix_refl _
    · exact List.suffix_cons token tokens

theorem readState_isSuffix (tokens : List Token) : (readState tokens).2 <:+ tokens := by
  cases tokens with
  | nil => exact List.suffix_refl _
  | cons name tokens =>
    rw [readState]
    split
    · exact List.suffix_cons name tokens
    · exact resume_isSuffix (name :: tokens)

theorem readLiteral_isSuffix (name : Token) (tokens : List Token) :
    (readLiteral name tokens).2 <:+ tokens := by
  cases tokens with
  | nil => exact List.suffix_refl _
  | cons literal tokens =>
    rw [readLiteral]
    split
    · exact List.suffix_cons literal tokens
    · exact resume_isSuffix (literal :: tokens)

theorem readConstant_isSuffix (tokens : List Token) : (readConstant tokens).2 <:+ tokens := by
  cases tokens with
  | nil => exact List.suffix_refl _
  | cons name tokens =>
    rw [readConstant]
    split
    · exact (readLiteral_isSuffix name tokens).trans (List.suffix_cons name tokens)
    · exact resume_isSuffix (name :: tokens)

theorem readInitial_isSuffix (tokens : List Token) : (readInitial tokens).2 <:+ tokens := by
  cases tokens with
  | nil => exact List.suffix_refl _
  | cons token tokens =>
    rw [readInitial]
    split
    · exact (readState_isSuffix tokens).trans (List.suffix_cons token tokens)
    · exact resume_isSuffix (token :: tokens)

/-- A step of the walk never goes back. -/
theorem readAt_isSuffix (token : Token) (tokens : List Token) :
    (readAt token tokens).2 <:+ tokens := by
  unfold readAt
  split
  · exact readConstant_isSuffix tokens
  · exact readInitial_isSuffix tokens
  · exact readState_isSuffix tokens
  · exact List.suffix_refl _

theorem readAt_length_le (token : Token) (tokens : List Token) :
    (readAt token tokens).2.length ≤ tokens.length :=
  (readAt_isSuffix token tokens).length_le

/-- All declarations among some tokens, in order. -/
def ofTokens : List Token → List Declaration
  | [] => []
  | token :: tokens => (readAt token tokens).1.toList ++ ofTokens (readAt token tokens).2
termination_by tokens => tokens.length
decreasing_by
  have := readAt_length_le token tokens
  simp only [List.length_cons]
  omega

@[simp] theorem ofTokens_nil : ofTokens [] = [] := by
  rw [ofTokens]

theorem ofTokens_cons (token : Token) (tokens : List Token) :
    ofTokens (token :: tokens) =
      (readAt token tokens).1.toList ++ ofTokens (readAt token tokens).2 := by
  rw [ofTokens]

/-! ### Entering the names -/

/-- Enters one declaration, unless the name is taken. -/
def enter (bindings : Bindings) (declaration : Declaration) : Bindings :=
  if bindings.has declaration.name.value then bindings
  else bindings.add declaration.name.value declaration.binding

/-- The table of some declarations: the first one of a name wins. -/
def bindings (declarations : List Declaration) : Bindings :=
  declarations.foldl enter []

/-- The diagnostics on names that are taken when their turn comes, given the names before them. -/
def repeatedFrom (taken : Bindings) : List Declaration → List Diagnostic
  | [] => []
  | declaration :: rest =>
    let later := repeatedFrom (enter taken declaration) rest
    if taken.has declaration.name.value then
      Diagnostic.atSpan .nameInUse declaration.name.span declaration.name.value :: later
    else later

/-- The diagnostics on names that are declared again. -/
def repeated (declarations : List Declaration) : List Diagnostic :=
  repeatedFrom [] declarations

end Declaration

end TapeMachine
