import TapeMachine.Automaton.Basic
import TapeMachine.Token.Basic

/-!
# TapeMachine.Proofs.Program.Grammar

The grammar of programs, what a program must satisfy beyond it, and what a program means.

```text
program := item*
item    := define IDENT (CHAR | STRING) | [initial] state IDENT { line* }
line    := sym / sym , (L | R) -> (self | IDENT)
sym     := CHAR | IDENT
```

* `Grammar.Tree` — a derivation, with the names and literals of its tokens.
* `Grammar.Derives` — the token rows a derivation stands for, one constructor per production.
* `Grammar.Tree.Valid` — the conditions on names that the productions cannot express.
* `Grammar.Tree.automaton?` — the automaton a derivation denotes.

None of this speaks of reading: no scan order, no table of names and no diagnostics. A name stands
for whatever the derivation declares under it, wherever that is.
-/

namespace TapeMachine.Grammar

/-! ### Derivations -/

/-- A symbol of a line. -/
inductive Symbol where
  /-- A character literal. -/
  | literal (symbol : String)
  /-- The name of a constant. -/
  | constant (name : String)
deriving Repr, DecidableEq

/-- The target of a line. -/
inductive Target where
  /-- The state the line belongs to. -/
  | self
  /-- The state of a name. -/
  | state (name : String)
deriving Repr, DecidableEq

/-- A line of a state. -/
structure Line where
  /-- The symbol the line is for. -/
  input : Symbol
  /-- The symbol to write. -/
  output : Symbol
  /-- The way to move. -/
  direction : Direction
  /-- The next state. -/
  target : Target
deriving Repr, DecidableEq

/-- A top-level definition. -/
inductive Item where
  /-- A character constant. -/
  | character (name symbol : String)
  /-- A string constant. -/
  | string (name text : String)
  /-- A state, marked as the initial one or not. -/
  | state (marked : Bool) (name : String) (lines : List Line)
deriving Repr, DecidableEq

/-- A program. -/
abbrev Tree := List Item

/-- A row of phrases, one behind the other. -/
inductive Many {α : Type} (Derives : α → List Token → Prop) : List α → List Token → Prop where
  | nil : Many Derives [] []
  | cons {phrase : α} {phrases : List α} {tokens rest : List Token} :
      Derives phrase tokens → Many Derives phrases rest →
        Many Derives (phrase :: phrases) (tokens ++ rest)

/-- `sym := CHAR | IDENT` -/
inductive Symbol.Derives : Symbol → Token → Prop where
  | literal {token : Token} : token.kind = .character → Derives (.literal token.value) token
  | constant {token : Token} : token.kind = .identifier → Derives (.constant token.value) token

/-- `L | R` -/
inductive DerivesDirection : Direction → Token → Prop where
  | left {token : Token} : token.kind = .left → DerivesDirection .left token
  | right {token : Token} : token.kind = .right → DerivesDirection .right token

/-- `self | IDENT` -/
inductive Target.Derives : Target → Token → Prop where
  | self {token : Token} : token.kind = .self → Derives .self token
  | state {token : Token} : token.kind = .identifier → Derives (.state token.value) token

/-- `line := sym / sym , (L | R) -> (self | IDENT)` -/
inductive Line.Derives : Line → List Token → Prop where
  | mk {line : Line} {input slash output comma direction arrow target : Token} :
      line.input.Derives input → slash.kind = .slash → line.output.Derives output →
      comma.kind = .comma → DerivesDirection line.direction direction → arrow.kind = .arrow →
      line.target.Derives target →
        Derives line [input, slash, output, comma, direction, arrow, target]

/-- `item := define IDENT (CHAR | STRING) | [initial] state IDENT { line* }` -/
inductive Item.Derives : Item → List Token → Prop where
  | character {keyword name literal : Token} :
      keyword.kind = .define → name.kind = .identifier → literal.kind = .character →
        Derives (.character name.value literal.value) [keyword, name, literal]
  | string {keyword name literal : Token} :
      keyword.kind = .define → name.kind = .identifier → literal.kind = .string →
        Derives (.string name.value literal.value) [keyword, name, literal]
  | state {keyword name opening closing : Token} {lines : List Line} {body : List Token} :
      keyword.kind = .state → name.kind = .identifier → opening.kind = .leftBrace →
      Many Line.Derives lines body → closing.kind = .rightBrace →
        Derives (.state false name.value lines) (keyword :: name :: opening :: (body ++ [closing]))
  | initial {mark : Token} {name : String} {lines : List Line} {tokens : List Token} :
      mark.kind = .initial → Derives (.state false name lines) tokens →
        Derives (.state true name lines) (mark :: tokens)

/-- `program := item*` -/
def Tree.Derives (tree : Tree) (tokens : List Token) : Prop :=
  Many Item.Derives tree tokens

/-! ### The kinds of tokens in a derivation -/

/-- The kinds of tokens that lines are made of. -/
def lineKinds : List Token.Kind :=
  [.character, .identifier, .slash, .comma, .left, .right, .arrow, .self]

/-- The kinds of tokens that programs are made of. -/
def programKinds : List Token.Kind :=
  [.define, .initial, .state, .string, .leftBrace, .rightBrace] ++ lineKinds

theorem Line.Derives.kind_mem {line : Line} {tokens : List Token} (h : line.Derives tokens) :
    ∀ token ∈ tokens, token.kind ∈ lineKinds := by
  obtain ⟨hinput, hslash, houtput, hcomma, hdirection, harrow, htarget⟩ := h
  have hsymbol : ∀ {symbol : Symbol} {token}, symbol.Derives token → token.kind ∈ lineKinds := by
    rintro _ _ (h | h) <;> simp [lineKinds, h]
  have hway : ∀ {way token}, DerivesDirection way token → token.kind ∈ lineKinds := by
    rintro _ _ (h | h) <;> simp [lineKinds, h]
  have hgoal : ∀ {goal : Target} {token}, goal.Derives token → token.kind ∈ lineKinds := by
    rintro _ _ (h | h) <;> simp [lineKinds, h]
  simp only [List.forall_mem_cons, List.not_mem_nil, false_implies, implies_true, and_true]
  refine ⟨hsymbol hinput, ?_, hsymbol houtput, ?_, hway hdirection, ?_, hgoal htarget⟩
  · simp [lineKinds, hslash]
  · simp [lineKinds, hcomma]
  · simp [lineKinds, harrow]

/-- What holds of the tokens of every phrase holds of those of a row of phrases. -/
theorem Many.forall_mem {α : Type} {Derives : α → List Token → Prop} {phrases : List α}
    {tokens : List Token} {p : Token → Prop} (h : Many Derives phrases tokens)
    (hp : ∀ phrase tokens, Derives phrase tokens → ∀ token ∈ tokens, p token) :
    ∀ token ∈ tokens, p token := by
  induction h with
  | nil => simp
  | cons hphrase _ ih =>
    intro token htoken
    rcases List.mem_append.mp htoken with htoken | htoken
    · exact hp _ _ hphrase token htoken
    · exact ih token htoken

theorem Item.Derives.kind_mem {item : Item} {tokens : List Token} (h : item.Derives tokens) :
    ∀ token ∈ tokens, token.kind ∈ programKinds := by
  induction h with
  | character hkeyword hname hliteral => simp [programKinds, lineKinds, hkeyword, hname, hliteral]
  | string hkeyword hname hliteral => simp [programKinds, lineKinds, hkeyword, hname, hliteral]
  | state hkeyword hname hopening hbody hclosing =>
    have hlines := hbody.forall_mem fun _ _ hline => hline.kind_mem
    simp only [List.mem_cons, List.mem_append, List.not_mem_nil, or_false]
    intro token hmem
    rcases hmem with rfl | rfl | rfl | htoken | rfl
    · simp [programKinds, hkeyword]
    · simp [programKinds, lineKinds, hname]
    · simp [programKinds, hopening]
    · exact List.mem_append_right _ (hlines token htoken)
    · simp [programKinds, hclosing]
  | initial hmark _ ih =>
    simp only [List.forall_mem_cons]
    exact ⟨by simp [programKinds, hmark], ih⟩

theorem Tree.Derives.kind_mem {tree : Tree} {tokens : List Token} (h : tree.Derives tokens) :
    ∀ token ∈ tokens, token.kind ∈ programKinds :=
  Many.forall_mem h fun _ _ hitem => hitem.kind_mem

/-! ### Names -/

/-- The name a definition declares. -/
def Item.name : Item → String
  | .character name _ | .string name _ | .state _ name _ => name

/-- Whether a definition is a state marked as the initial one. -/
def Item.isInitial : Item → Bool
  | .state marked _ _ => marked
  | _ => false

namespace Tree

/-- The character a constant of the program stands for. -/
def constant? (tree : Tree) (name : String) : Option String :=
  tree.findSome? fun item =>
    match item with
    | .character key symbol => if key = name then some symbol else none
    | _ => none

/-- The symbol that a symbol of the program stands for. -/
def symbol? (tree : Tree) : Symbol → Option String
  | .literal symbol => some symbol
  | .constant name => tree.constant? name

/-- The conditions on the names in the lines of one state. -/
structure ValidLines (tree : Tree) (lines : List Line) : Prop where
  /-- A name used as a symbol is that of a character constant. -/
  symbols : ∀ line ∈ lines, ∀ name, line.input = .constant name ∨ line.output = .constant name →
    ∃ symbol, .character name symbol ∈ tree
  /-- A name used as a target is that of a state. -/
  targets : ∀ line ∈ lines, ∀ name, line.target = .state name →
    ∃ marked lines, .state marked name lines ∈ tree
  /-- No two lines are for the same symbol. -/
  inputs : (lines.map fun line => tree.symbol? line.input).Nodup

/-- The conditions on the names of a program. -/
structure Valid (tree : Tree) : Prop where
  /-- Every name is declared once, states and constants together. -/
  distinct : (tree.map Item.name).Nodup
  /-- Exactly one state is marked as the initial one. -/
  initial : tree.countP Item.isInitial = 1
  /-- The lines of every state are valid. -/
  lines : ∀ marked owner lines, .state marked owner lines ∈ tree → tree.ValidLines lines

/-! ### Meaning -/

/-- The name of the state marked as the initial one. -/
def initial? (tree : Tree) : Option String :=
  tree.findSome? fun item =>
    match item with
    | .state true name _ => some name
    | _ => none

/-- The states of a program, in order. -/
def blocks (tree : Tree) : List (String × List Line) :=
  tree.filterMap fun item =>
    match item with
    | .state _ name lines => some (name, lines)
    | _ => none

/-- The case a line of the state `owner` denotes, with the symbol it is for. -/
def case? (tree : Tree) (owner : String) (line : Line) : Option (String × Case) := do
  let symbol ← tree.symbol? line.input
  let replacement ← tree.symbol? line.output
  return (symbol,
    { replacement
      direction := line.direction
      target :=
        match line.target with
        | .self => owner
        | .state name => name })

/-- The state a block denotes, with its name. -/
def state? (tree : Tree) (block : String × List Line) : Option (String × State) :=
  (block.1, ·) <$> block.2.mapM (tree.case? block.1)

/-- The automaton a program denotes: states and cases in order, constants replaced by their
characters. There is none if a constant is missing or no state is marked. -/
def automaton? (tree : Tree) : Option Automaton := do
  let initial ← tree.initial?
  let states ← tree.blocks.mapM tree.state?
  return { initial, states }

end Tree

end TapeMachine.Grammar
