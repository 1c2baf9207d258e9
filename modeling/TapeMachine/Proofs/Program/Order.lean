import Mathlib.Data.List.Forall2
import Mathlib.Data.List.Perm.Basic
import TapeMachine.Proofs.Program.Closure

/-!
# TapeMachine.Proofs.Program.Order

The definitions of a program may be written in any order.

What a derivation denotes does not depend on the order of its items, once it is valid: then every
name is declared once, so it does not matter that the first declaration wins, and one state is
marked, so it does not matter where the mark stands. What is left to show is that a token list has
only one derivation; so the one that reading found is the one whose items are moved around.

* `Grammar.Tree.Derives.unique` — the grammar is unambiguous.
* `Grammar.Item.byContent` — derivations do not look at positions.
* `Grammar.Tree.Valid.perm`, `Grammar.Tree.Valid.automaton_perm` — validity and meaning of a
  derivation whose items are moved around.
* `Program.ofTokens_reordered` — the same for token lists.
-/

namespace TapeMachine

namespace Grammar

/-! ### The grammar is unambiguous -/

theorem Symbol.Derives.unique {symbol other : Symbol} {token : Token} (h : symbol.Derives token)
    (hother : other.Derives token) : symbol = other := by
  cases h with
  | literal hkind =>
    cases hother with
    | literal _ => rfl
    | constant hkind' => rw [hkind] at hkind'; cases hkind'
  | constant hkind =>
    cases hother with
    | literal hkind' => rw [hkind] at hkind'; cases hkind'
    | constant _ => rfl

theorem DerivesDirection.unique {direction other : Direction} {token : Token}
    (h : DerivesDirection direction token) (hother : DerivesDirection other token) :
    direction = other := by
  cases h with
  | left hkind =>
    cases hother with
    | left _ => rfl
    | right hkind' => rw [hkind] at hkind'; cases hkind'
  | right hkind =>
    cases hother with
    | left hkind' => rw [hkind] at hkind'; cases hkind'
    | right _ => rfl

theorem Target.Derives.unique {target other : Target} {token : Token} (h : target.Derives token)
    (hother : other.Derives token) : target = other := by
  cases h with
  | self hkind =>
    cases hother with
    | self _ => rfl
    | state hkind' => rw [hkind] at hkind'; cases hkind'
  | state hkind =>
    cases hother with
    | self hkind' => rw [hkind] at hkind'; cases hkind'
    | state _ => rfl

/-- Phrases of a sort are told apart by what they start with: of two that start the same tokens,
neither goes on further than the other. -/
def SelfDelimiting {α : Type} (Derives : α → List Token → Prop) : Prop :=
  ∀ ⦃left right : α⦄ ⦃tokens others rest more : List Token⦄, Derives left tokens →
    Derives right others → tokens ++ rest = others ++ more → left = right ∧ tokens = others

theorem Line.selfDelimiting : SelfDelimiting Line.Derives := by
  intro left right tokens others rest more hleft hright heq
  obtain ⟨hinput, -, houtput, -, hdirection, -, htarget⟩ := hleft
  obtain ⟨hinput', -, houtput', -, hdirection', -, htarget'⟩ := hright
  simp only [List.cons_append, List.nil_append, List.cons.injEq] at heq
  obtain ⟨rfl, rfl, rfl, rfl, rfl, rfl, rfl, -⟩ := heq
  refine ⟨?_, rfl⟩
  cases left
  cases right
  rw [Line.mk.injEq]
  exact ⟨hinput.unique hinput', houtput.unique houtput', hdirection.unique hdirection',
    htarget.unique htarget'⟩

/-- A row of such phrases is told by where it stops, if no phrase starts there. -/
theorem Many.unique {α : Type} {Derives : α → List Token → Prop} (Stop : List Token → Prop)
    (hphrase : SelfDelimiting Derives)
    (hstop : ∀ phrase tokens rest, Derives phrase tokens → ¬ Stop (tokens ++ rest))
    {phrases others : List α} {tokens row rest more : List Token} (h : Many Derives phrases tokens)
    (hothers : Many Derives others row) (hrest : Stop rest) (hmore : Stop more)
    (heq : tokens ++ rest = row ++ more) : phrases = others ∧ tokens = row := by
  induction h generalizing others row with
  | nil =>
    cases hothers with
    | nil => exact ⟨rfl, rfl⟩
    | cons hfirst _ =>
      rw [List.nil_append, List.append_assoc] at heq
      exact absurd (heq ▸ hrest) (hstop _ _ _ hfirst)
  | cons hfirst _ ih =>
    cases hothers with
    | nil =>
      rw [List.nil_append, List.append_assoc] at heq
      exact absurd (heq ▸ hmore) (hstop _ _ _ hfirst)
    | cons hother hlater =>
      rw [List.append_assoc, List.append_assoc] at heq
      obtain ⟨rfl, rfl⟩ := hphrase hfirst hother heq
      obtain ⟨rfl, rfl⟩ := ih hlater (List.append_cancel_left heq)
      exact ⟨rfl, rfl⟩

/-- No line starts at a closing brace. -/
theorem Line.not_closing (line : Line) (tokens rest : List Token) (h : line.Derives tokens) :
    ¬ ∃ closing more, tokens ++ rest = closing :: more ∧ closing.kind = .rightBrace := by
  rintro ⟨closing, more, heq, hclosing⟩
  obtain ⟨hinput, -, -, -, -, -, -⟩ := h
  obtain ⟨rfl, -⟩ := List.cons.inj heq
  have hsymbol := hinput.isSymbol
  rw [hclosing] at hsymbol
  cases hsymbol

theorem Item.selfDelimiting : SelfDelimiting Item.Derives := by
  intro left right tokens others rest more hleft hright heq
  -- the first token tells constants, states and marks apart
  induction hleft generalizing right others with
  | character hkeyword hname hliteral =>
    cases hright with
    | character _ _ _ => simp_all
    | string _ _ hliteral' => simp_all
    | state hkeyword' _ _ _ _ => simp_all
    | initial hmark _ => simp_all
  | string hkeyword hname hliteral =>
    cases hright with
    | character _ _ hliteral' => simp_all
    | string _ _ _ => simp_all
    | state hkeyword' _ _ _ _ => simp_all
    | initial hmark _ => simp_all
  | @state keyword name opening closing lines body hkeyword hname hopening hbody hclosing =>
    cases hright with
    | character hkeyword' _ _ => simp_all
    | string hkeyword' _ _ => simp_all
    | @state _ _ _ closing' lines' body' hkeyword' hname' hopening' hbody' hclosing' =>
      simp only [List.cons_append, List.append_assoc, List.nil_append, List.cons.injEq] at heq
      obtain ⟨rfl, rfl, rfl, heq⟩ := heq
      obtain ⟨rfl, rfl⟩ := Many.unique
        (fun tokens => ∃ closing more, tokens = closing :: more ∧ closing.kind = .rightBrace)
        Line.selfDelimiting Line.not_closing hbody hbody' ⟨closing, rest, rfl, hclosing⟩
        ⟨closing', more, rfl, hclosing'⟩ heq
      obtain ⟨rfl, -⟩ := List.cons.inj (List.append_cancel_left heq)
      exact ⟨rfl, rfl⟩
    | initial hmark _ => simp_all
  | initial hmark _ ih =>
    cases hright with
    | character hkeyword' _ _ => simp_all
    | string hkeyword' _ _ => simp_all
    | state hkeyword' _ _ _ _ => simp_all
    | initial _ hstate =>
      obtain ⟨rfl, htail⟩ := List.cons.inj heq
      obtain ⟨hsame, rfl⟩ := ih hstate htail
      rw [Item.state.injEq] at hsame ⊢
      exact ⟨⟨rfl, hsame.2⟩, rfl⟩

/-- A token list has at most one derivation. -/
theorem Tree.Derives.unique {tree other : Tree} {tokens : List Token} (h : tree.Derives tokens)
    (hother : other.Derives tokens) : tree = other := by
  have hstop : ∀ (item : Item) (tokens rest), item.Derives tokens → tokens ++ rest ≠ [] := by
    intro item tokens rest hitem
    cases hitem <;> exact List.cons_ne_nil _ _
  exact (Many.unique (· = []) Item.selfDelimiting hstop h hother rfl rfl rfl).1

/-! ### Positions do not matter -/

end Grammar

/-- What the grammar looks at in a token. -/
def Token.content (token : Token) : Token.Kind × String :=
  (token.kind, token.value)

theorem Token.content_eq_iff {token other : Token} :
    token.content = other.content ↔ token.kind = other.kind ∧ token.value = other.value := by
  rw [content, content, Prod.mk.injEq]

namespace Grammar

theorem Symbol.Derives.of_content {symbol : Symbol} {token other : Token}
    (h : symbol.Derives token) (heq : other.content = token.content) : symbol.Derives other := by
  obtain ⟨hkind, hvalue⟩ := Token.content_eq_iff.mp heq
  cases h with
  | literal h => rw [← hvalue]; exact .literal (hkind.trans h)
  | constant h => rw [← hvalue]; exact .constant (hkind.trans h)

theorem DerivesDirection.of_content {direction : Direction} {token other : Token}
    (h : DerivesDirection direction token) (heq : other.content = token.content) :
    DerivesDirection direction other := by
  obtain ⟨hkind, -⟩ := Token.content_eq_iff.mp heq
  cases h with
  | left h => exact .left (hkind.trans h)
  | right h => exact .right (hkind.trans h)

theorem Target.Derives.of_content {target : Target} {token other : Token}
    (h : target.Derives token) (heq : other.content = token.content) : target.Derives other := by
  obtain ⟨hkind, hvalue⟩ := Token.content_eq_iff.mp heq
  cases h with
  | self h => exact .self (hkind.trans h)
  | state h => rw [← hvalue]; exact .state (hkind.trans h)

/-- Whether phrases of a sort can be told from the contents of their tokens. -/
def ByContent {α : Type} (Derives : α → List Token → Prop) : Prop :=
  ∀ ⦃phrase : α⦄ ⦃tokens others : List Token⦄, Derives phrase tokens →
    others.map Token.content = tokens.map Token.content → Derives phrase others

theorem Many.byContent {α : Type} {Derives : α → List Token → Prop} (h : ByContent Derives) :
    ByContent (Many Derives) := by
  intro phrases tokens others hmany heq
  induction hmany generalizing others with
  | nil =>
    obtain rfl := List.map_eq_nil_iff.mp heq
    exact .nil
  | cons hphrase _ ih =>
    rw [List.map_append, List.map_eq_append_iff] at heq
    obtain ⟨first, later, rfl, hfirst, hlater⟩ := heq
    exact .cons (h hphrase hfirst) (ih hlater)

theorem Line.byContent : ByContent Line.Derives := by
  intro line tokens others h heq
  obtain ⟨hinput, hslash, houtput, hcomma, hdirection, harrow, htarget⟩ := h
  simp only [List.map_cons, List.map_nil, List.map_eq_cons_iff, List.map_eq_nil_iff] at heq
  obtain ⟨input, _, rfl, hinput', slash, _, rfl, hslash', output, _, rfl, houtput', comma, _, rfl,
    hcomma', direction, _, rfl, hdirection', arrow, _, rfl, harrow', target, _, rfl, htarget',
    rfl⟩ := heq
  exact .mk (hinput.of_content hinput') ((Token.content_eq_iff.mp hslash').1.trans hslash)
    (houtput.of_content houtput') ((Token.content_eq_iff.mp hcomma').1.trans hcomma)
    (hdirection.of_content hdirection') ((Token.content_eq_iff.mp harrow').1.trans harrow)
    (htarget.of_content htarget')

theorem Item.byContent : ByContent Item.Derives := by
  intro item tokens others h heq
  induction h generalizing others with
  | character hkeyword hname hliteral =>
    simp only [List.map_cons, List.map_nil, List.map_eq_cons_iff, List.map_eq_nil_iff,
      Token.content_eq_iff] at heq
    obtain ⟨keyword, _, rfl, hkeyword', name, _, rfl, hname', literal, _, rfl, hliteral', rfl⟩ :=
      heq
    rw [← hname'.2, ← hliteral'.2]
    exact .character (hkeyword'.1.trans hkeyword) (hname'.1.trans hname)
      (hliteral'.1.trans hliteral)
  | string hkeyword hname hliteral =>
    simp only [List.map_cons, List.map_nil, List.map_eq_cons_iff, List.map_eq_nil_iff,
      Token.content_eq_iff] at heq
    obtain ⟨keyword, _, rfl, hkeyword', name, _, rfl, hname', literal, _, rfl, hliteral', rfl⟩ :=
      heq
    rw [← hname'.2, ← hliteral'.2]
    exact .string (hkeyword'.1.trans hkeyword) (hname'.1.trans hname) (hliteral'.1.trans hliteral)
  | state hkeyword hname hopening hbody hclosing =>
    simp only [List.map_cons, List.map_append, List.map_nil, List.map_eq_cons_iff,
      List.map_eq_append_iff, List.map_eq_nil_iff, Token.content_eq_iff] at heq
    obtain ⟨keyword, _, rfl, hkeyword', name, _, rfl, hname', opening, _, rfl, hopening', body, _,
      rfl, hbody', closing, _, rfl, hclosing', rfl⟩ := heq
    rw [← hname'.2]
    exact .state (hkeyword'.1.trans hkeyword) (hname'.1.trans hname) (hopening'.1.trans hopening)
      (Many.byContent Line.byContent hbody hbody') (hclosing'.1.trans hclosing)
  | initial hmark _ ih =>
    rw [List.map_cons, List.map_eq_cons_iff] at heq
    obtain ⟨mark, tokens, rfl, hmark', htokens⟩ := heq
    exact .initial ((Token.content_eq_iff.mp hmark').1.trans hmark) (ih htokens)

/-! ### The order of definitions does not matter -/

/-- The name of a state that is marked as the initial one. -/
def Item.mark? : Item → Option String
  | .state true name _ => some name
  | _ => none

theorem Item.isSome_mark? : (fun item => (Item.mark? item).isSome) = Item.isInitial := by
  funext item
  cases item with
  | character name symbol => rfl
  | string name text => rfl
  | state marked name lines => cases marked <;> rfl

namespace Tree

variable {tree other : Tree}

theorem lookup_bindings_perm (hperm : tree.Perm other) (h : (tree.map Item.name).Nodup)
    (name : String) : tree.bindings.lookup name = other.bindings.lookup name := by
  have hnames : tree.bindings.names.Nodup := by rwa [names_bindings]
  exact Table.lookup_of_perm (hperm.map _) hnames name

/-- A constant stands for the same symbol, as there is only one definition of it. -/
theorem symbol?_perm (hperm : tree.Perm other) (h : (tree.map Item.name).Nodup)
    (symbol : Symbol) : tree.symbol? symbol = other.symbol? symbol := by
  have hother : (other.map Item.name).Nodup := (hperm.map Item.name).nodup_iff.mp h
  rw [← resolve?_eq_symbol? h, ← resolve?_eq_symbol? hother]
  cases symbol with
  | literal symbol => rfl
  | constant name => rw [Symbol.resolve?, Symbol.resolve?, lookup_bindings_perm hperm h]

theorem state?_perm (hperm : tree.Perm other) (h : (tree.map Item.name).Nodup) :
    tree.state? = other.state? := by
  have hcase : tree.case? = other.case? := by
    funext owner line
    rw [case?, case?, symbol?_perm hperm h, symbol?_perm hperm h]
  funext block
  rw [state?, state?, hcase]

theorem initial?_eq_head? (tree : Tree) : tree.initial? = (tree.filterMap Item.mark?).head? :=
  List.head?_filterMap.symm

/-- The initial state is the same, as only one is marked. -/
theorem initial?_perm (hperm : tree.Perm other) (h : tree.countP Item.isInitial = 1) :
    tree.initial? = other.initial? := by
  have hlength : (tree.filterMap Item.mark?).length = 1 := by
    rw [List.length_filterMap_eq_countP, Item.isSome_mark?, h]
  obtain ⟨name, hname⟩ := List.length_eq_one_iff.mp hlength
  have hmarks : (other.filterMap Item.mark?).Perm [name] :=
    hname ▸ (hperm.filterMap Item.mark?).symm
  rw [initial?_eq_head?, initial?_eq_head?, hname, List.perm_singleton.mp hmarks]

theorem Valid.perm (h : tree.Valid) (hperm : tree.Perm other) : other.Valid := by
  refine ⟨(hperm.map Item.name).nodup_iff.mp h.distinct, ?_, ?_⟩
  · rw [← hperm.countP_eq]
    exact h.initial
  · intro marked owner lines hitem
    obtain ⟨hsymbols, htargets, hinputs⟩ := h.lines marked owner lines (hperm.mem_iff.mpr hitem)
    simp only [hperm.mem_iff, symbol?_perm hperm h.distinct] at hsymbols htargets hinputs
    exact ⟨hsymbols, htargets, hinputs⟩

/-- Two valid programs that differ in the order of their definitions denote automata that differ in
the order of their states. -/
theorem Valid.automaton_perm (h : tree.Valid) (hperm : tree.Perm other)
    {automaton again : Automaton} (hdenotes : tree.automaton? = some automaton)
    (hagain : other.automaton? = some again) :
    automaton.initial = again.initial ∧ automaton.states.Perm again.states := by
  obtain ⟨hinitial, hstates⟩ := automaton?_eq_some_iff.mp hdenotes
  obtain ⟨hinitial', hstates'⟩ := automaton?_eq_some_iff.mp hagain
  rw [initial?_perm hperm h.initial, hinitial'] at hinitial
  refine ⟨(Option.some.inj hinitial).symm, ?_⟩
  rw [state?_perm hperm h.distinct] at hstates
  have hblocks : (tree.blocks.map other.state?).Perm (other.blocks.map other.state?) :=
    (hperm.filterMap _).map _
  rw [mapM_eq_some_iff.mp hstates, mapM_eq_some_iff.mp hstates'] at hblocks
  exact (List.map_perm_map_iff fun _ _ => Option.some.inj).mp hblocks

end Tree

/-! ### Rows of definitions -/

theorem Tree.derives_flatten {tree : Tree} {pieces : List (List Token)}
    (h : List.Forall₂ Item.Derives tree pieces) : tree.Derives pieces.flatten := by
  induction h with
  | nil => exact .nil
  | cons hitem _ ih => exact .cons hitem ih

theorem exists_tree {pieces : List (List Token)}
    (h : ∀ piece ∈ pieces, ∃ item : Item, item.Derives piece) :
    ∃ tree : Tree, List.Forall₂ Item.Derives tree pieces := by
  induction pieces with
  | nil => exact ⟨[], .nil⟩
  | cons piece pieces ih =>
    obtain ⟨item, hitem⟩ := h piece List.mem_cons_self
    obtain ⟨tree, htree⟩ := ih fun piece hpiece => h piece (.tail _ hpiece)
    exact ⟨item :: tree, .cons hitem htree⟩

/-- A definition derives every row of tokens with the given contents. -/
def Item.Fits (contents : List (Token.Kind × String)) (item : Item) : Prop :=
  ∀ piece : List Token, piece.map Token.content = contents → item.Derives piece

/-- Definitions that are moved, wherever their tokens stand then, take their derivations along. -/
theorem exists_tree_perm {tree : Tree} {pieces others : List (List Token)}
    (h : List.Forall₂ Item.Derives tree pieces)
    (hperm : (others.map (List.map Token.content)).Perm (pieces.map (List.map Token.content))) :
    ∃ other : Tree, tree.Perm other ∧ List.Forall₂ Item.Derives other others := by
  have hfits : List.Forall₂ Item.Fits (pieces.map (List.map Token.content)) tree := by
    rw [List.forall₂_map_left_iff]
    exact h.flip.imp fun piece item hitem other heq => Item.byContent hitem heq
  obtain ⟨other, hother, hsame⟩ := List.perm_comp_forall₂ hperm hfits
  refine ⟨other, hsame.symm, ?_⟩
  rw [List.forall₂_map_left_iff] at hother
  exact (hother.imp fun piece item hitem => hitem piece rfl).flip

end Grammar

open Grammar

namespace Program

/-- Two programs have the same initial state, and the same names and states in any order. -/
structure Agrees (program other : Program) : Prop where
  /-- The initial state is called the same. -/
  initial : program.automaton.initial = other.automaton.initial
  /-- A name stands for the same, or is declared in neither. -/
  bindings : ∀ name, program.bindings.lookup name = other.bindings.lookup name
  /-- A state has the same cases, or is in neither. -/
  states : ∀ name, program.automaton.state? name = other.automaton.state? name

section

variable {tree : Tree} {tokens rest : List Token} (h : tree.Derives tokens)
  (hnamed : ∀ token ∈ tokens, token.kind = .identifier → token.value ≠ "")
  (hrest : ∀ token ∈ rest.head?, token.kind = .endOfText)

include h hnamed hrest

/-- A program without a diagnostic is valid, as it has no other derivation. -/
theorem valid_of_diagnostics (hdiagnostics : (ofTokens (tokens ++ rest)).diagnostics = []) :
    tree.Valid := by
  have hbody := Body.tokens_of_derives h hrest
  obtain ⟨found, hfound, hvalid, -⟩ :=
    (ofTokens_accepts_iff (by rwa [hbody])).mp ⟨hdiagnostics, rfl⟩
  rw [hbody] at hfound
  rwa [h.unique hfound]

/-- A valid program is read without a diagnostic, into what it denotes. -/
theorem ofTokens_of_valid (hvalid : tree.Valid) :
    (ofTokens (tokens ++ rest)).diagnostics = [] ∧
      tree.automaton? = some (ofTokens (tokens ++ rest)).automaton ∧
      (ofTokens (tokens ++ rest)).bindings = tree.bindings := by
  have hbody := Body.tokens_of_derives h hrest
  have hderives : tree.Derives (Body.ofTokens (tokens ++ rest)).tokens := by rwa [hbody]
  obtain ⟨automaton, hdenotes⟩ := hvalid.exists_automaton?
  obtain ⟨hdiagnostics, rfl⟩ :=
    (ofTokens_accepts_iff (by rwa [hbody])).mpr ⟨tree, hderives, hvalid, hdenotes⟩
  obtain ⟨hdistinct, htable⟩ := declarations_of_derives hderives
  exact ⟨hdiagnostics, hdenotes, htable (hdistinct.mpr hvalid.distinct)⟩

end

/-- The definitions of a program can be written in any order: if rows of tokens that are one
definition each are read, one behind the other, without a diagnostic, so are the same definitions in
any other order and at any other positions, and both programs agree. Nothing, or an end, may stand
behind them. -/
theorem ofTokens_reordered {pieces others : List (List Token)} {rest more : List Token}
    (hpieces : ∀ piece ∈ pieces, ∃ item : Item, item.Derives piece)
    (hnamed : ∀ token ∈ pieces.flatten, token.kind = .identifier → token.value ≠ "")
    (hperm : (others.map (List.map Token.content)).Perm (pieces.map (List.map Token.content)))
    (hrest : ∀ token ∈ rest.head?, token.kind = .endOfText)
    (hmore : ∀ token ∈ more.head?, token.kind = .endOfText)
    (h : (ofTokens (pieces.flatten ++ rest)).diagnostics = []) :
    (ofTokens (others.flatten ++ more)).diagnostics = [] ∧
      (ofTokens (others.flatten ++ more)).Agrees (ofTokens (pieces.flatten ++ rest)) := by
  obtain ⟨tree, htree⟩ := exists_tree hpieces
  obtain ⟨other, hmoved, hother⟩ := exists_tree_perm htree hperm
  have hderives := Tree.derives_flatten htree
  have hderives' := Tree.derives_flatten hother
  have hnamed' : ∀ token ∈ others.flatten, token.kind = .identifier → token.value ≠ "" := by
    intro token htoken hkind
    have hcontents := hperm.flatten
    rw [← List.map_flatten, ← List.map_flatten] at hcontents
    obtain ⟨same, hsame, heq⟩ :=
      List.mem_map.mp (hcontents.subset (List.mem_map_of_mem htoken))
    obtain ⟨hkind', hvalue⟩ := Token.content_eq_iff.mp heq
    rw [← hvalue]
    exact hnamed same hsame (hkind'.trans hkind)
  have hvalid := valid_of_diagnostics hderives hnamed hrest h
  obtain ⟨-, hdenotes, hbindings⟩ := ofTokens_of_valid hderives hnamed hrest hvalid
  obtain ⟨hdiagnostics, hdenotes', hbindings'⟩ :=
    ofTokens_of_valid hderives' hnamed' hmore (hvalid.perm hmoved)
  obtain ⟨hinitial, hstates⟩ := hvalid.automaton_perm hmoved hdenotes hdenotes'
  refine ⟨hdiagnostics, hinitial.symm, ?_, ?_⟩
  · intro name
    rw [hbindings, hbindings', Tree.lookup_bindings_perm hmoved hvalid.distinct]
  · intro name
    have hdistinct : (ofTokens (pieces.flatten ++ rest)).automaton.states.names.Nodup := by
      rw [Tree.names_of_automaton? hdenotes]
      exact hvalid.distinct.sublist (Tree.names_blocks_sublist tree)
    exact (Table.lookup_of_perm hstates hdistinct name).symm

/-- Tokens of given contents that start at a position and stand side by side. -/
def tokensAt (start : Nat) : List (Token.Kind × String) → List Token
  | [] => []
  | (kind, value) :: contents =>
    { kind, value, span := ⟨start, 1⟩, fault := none } :: tokensAt (start + 1) contents

/-- An initial state that uses a constant and leads to another state. -/
def starter : List (Token.Kind × String) :=
  [(.initial, ""), (.state, ""), (.identifier, "s"), (.leftBrace, ""), (.identifier, "x"),
    (.slash, ""), (.character, "b"), (.comma, ""), (.right, ""), (.arrow, ""), (.identifier, "t"),
    (.rightBrace, "")]

/-- The constant. -/
def definer : List (Token.Kind × String) :=
  [(.define, ""), (.identifier, "x"), (.character, "a")]

/-- The other state, which leads back. -/
def finisher : List (Token.Kind × String) :=
  [(.state, ""), (.identifier, "t"), (.leftBrace, ""), (.identifier, "x"), (.slash, ""),
    (.identifier, "x"), (.comma, ""), (.left, ""), (.arrow, ""), (.identifier, "s"),
    (.rightBrace, "")]

/-- The names that these declare. -/
def starterNames : Bindings :=
  [("s", .state), ("x", .character "a"), ("t", .state)]

/-- Used before they are defined or defined before they are used, it is the same program. -/
theorem ofTokens_reordered_starter :
    (ofTokens ([tokensAt 0 starter, tokensAt 12 definer, tokensAt 15 finisher].flatten ++
      [Token.ending 26])).diagnostics = [] ∧
    (ofTokens ([tokensAt 9 finisher, tokensAt 0 definer, tokensAt 5 starter].flatten ++
      [])).diagnostics = [] ∧
    (ofTokens ([tokensAt 9 finisher, tokensAt 0 definer, tokensAt 5 starter].flatten ++ [])).Agrees
      (ofTokens ([tokensAt 0 starter, tokensAt 12 definer, tokensAt 15 finisher].flatten ++
        [Token.ending 26])) := by
  have hdiagnostics : (ofTokens ([tokensAt 0 starter, tokensAt 12 definer,
      tokensAt 15 finisher].flatten ++ [Token.ending 26])).diagnostics = [] := by
    decide +kernel
  -- what is read without a diagnostic and to its end is a definition
  have hitem : ∀ token tokens,
      (Definition.readAt starterNames ⟨0, 0⟩ Automaton.empty token tokens).diagnostics = [] →
      (Definition.readAt starterNames ⟨0, 0⟩ Automaton.empty token tokens).rest = [] →
        ∃ item : Item, item.Derives (token :: tokens) := by
    intro token tokens hread hrest
    obtain ⟨item, taken, htaken, hitem, -⟩ := Definition.exists_item_of_readAt hread
    rw [hrest, List.append_nil] at htaken
    exact ⟨item, htaken ▸ hitem⟩
  have hpieces : ∀ piece ∈ [tokensAt 0 starter, tokensAt 12 definer, tokensAt 15 finisher],
      ∃ item : Item, item.Derives piece := by
    simp only [List.forall_mem_cons, List.not_mem_nil, false_implies, implies_true, and_true]
    refine ⟨hitem _ _ ?_ ?_, hitem _ _ ?_ ?_, hitem _ _ ?_ ?_⟩ <;> decide +kernel
  exact ⟨hdiagnostics, ofTokens_reordered hpieces (by decide) (by decide) (by decide) (by simp)
    hdiagnostics⟩

end Program

end TapeMachine
