import TapeMachine.Proofs.Automaton.RoundTrip

/-!
# TapeMachine.Proofs.Program.Closure

A program that compiles gives an automaton that is closed: all its targets are its own states.

Targets are looked up in the table of declared names, which was filled before any state was read.
What ties the two together is the derivation of the program: its names are those of the table, and
its blocks are the states of the automaton.

* `Grammar.Tree.WellSpelled` — the names and symbols in a derivation are ones of the language.
* `Grammar.Tree.Valid.wellFormed` — a valid derivation denotes a well-formed automaton.
* `Compilation.exists_wellFormed_of_ok` — so a text that compiles gives one.
-/

namespace TapeMachine

/-- The names that stand for states, in order of declaration. -/
def Bindings.states (bindings : Bindings) : List String :=
  (bindings.filter (·.2.isState)).map Prod.fst

/-- Every value of a row that was mapped is the value of something. -/
theorem exists_of_mem_mapM {α β : Type} {f : α → Option β} {xs : List α} {ys : List β}
    (h : xs.mapM f = some ys) {y : β} (hy : y ∈ ys) : ∃ x ∈ xs, f x = some y := by
  have hmem : some y ∈ ys.map some := List.mem_map_of_mem hy
  rw [← mapM_eq_some_iff.mp h] at hmem
  exact List.mem_map.mp hmem

namespace Grammar

/-! ### From tokens to derivations -/

theorem Many.exists_derives {α : Type} {Derives : α → List Token → Prop} {phrases : List α}
    {tokens : List Token} (h : Many Derives phrases tokens) :
    ∀ phrase ∈ phrases, ∃ part, Derives phrase part ∧ ∀ token ∈ part, token ∈ tokens := by
  induction h with
  | nil => simp
  | @cons first rest tokens later hfirst _ ih =>
    intro phrase hmem
    rcases List.mem_cons.mp hmem with rfl | hmem
    · exact ⟨tokens, hfirst, fun token htoken => List.mem_append_left _ htoken⟩
    · obtain ⟨part, hpart, hsubset⟩ := ih phrase hmem
      exact ⟨part, hpart, fun token htoken => List.mem_append_right _ (hsubset token htoken)⟩

theorem Item.Derives.exists_lines {marked : Bool} {owner : String} {lines : List Line}
    {tokens : List Token} (h : (Item.state marked owner lines).Derives tokens) :
    ∃ body, Many Line.Derives lines body ∧ ∀ token ∈ body, token ∈ tokens := by
  have hplain : ∀ {tokens}, (Item.state false owner lines).Derives tokens →
      ∃ body, Many Line.Derives lines body ∧ ∀ token ∈ body, token ∈ tokens := by
    intro tokens h
    cases h with
    | @state keyword name opening closing _ body _ _ _ hbody _ =>
      exact ⟨body, hbody, fun token htoken => by simp [htoken]⟩
  cases h with
  | @state keyword name opening closing _ body hkeyword hname hopening hbody hclosing =>
    exact hplain (.state hkeyword hname hopening hbody hclosing)
  | @initial mark _ _ tokens _ hstate =>
    obtain ⟨body, hbody, hsubset⟩ := hplain hstate
    exact ⟨body, hbody, fun token htoken => List.mem_cons_of_mem _ (hsubset token htoken)⟩

/-- The symbols of a line that are literals are single characters. -/
def Line.WellSpelled (line : Line) : Prop :=
  ∀ value, line.input = .literal value ∨ line.output = .literal value → value.length = 1

/-- The names and symbols of a program are ones of the language. -/
structure Tree.WellSpelled (tree : Tree) : Prop where
  /-- What is defined has a name. -/
  names : ∀ item ∈ tree, IsName item.name
  /-- Character constants are single characters. -/
  constants : ∀ name symbol, .character name symbol ∈ tree → symbol.length = 1
  /-- So are literals in lines. -/
  lines : ∀ marked owner lines, .state marked owner lines ∈ tree →
    ∀ line ∈ lines, line.WellSpelled

theorem Symbol.Derives.length_literal {symbol : Symbol} {token : Token} {value : String}
    (h : symbol.Derives token) (hspelled : token.WellSpelled) (hvalue : symbol = .literal value) :
    value.length = 1 := by
  cases h with
  | literal hkind =>
    obtain rfl := Symbol.literal.inj hvalue
    exact hspelled.character hkind
  | constant hkind => cases hvalue

theorem Line.Derives.wellSpelled {line : Line} {tokens : List Token} (h : line.Derives tokens)
    (hspelled : ∀ token ∈ tokens, token.WellSpelled) : line.WellSpelled := by
  obtain ⟨hinput, -, houtput, -, -, -, -⟩ := h
  rintro value (hvalue | hvalue)
  · exact hinput.length_literal (hspelled _ (by simp)) hvalue
  · exact houtput.length_literal (hspelled _ (by simp)) hvalue

theorem Tree.Derives.wellSpelled {tree : Tree} {tokens : List Token} (h : tree.Derives tokens)
    (hspelled : ∀ token ∈ tokens, token.WellSpelled) : tree.WellSpelled := by
  refine ⟨fun item hitem => ?_, fun name symbol hitem => ?_,
    fun marked owner lines hitem line hline => ?_⟩
  · obtain ⟨part, hpart, hsubset⟩ := Many.exists_derives h item hitem
    obtain ⟨token, htoken, hkind, hvalue⟩ := hpart.name_eq
    rw [← hvalue]
    exact (hspelled token (hsubset token htoken)).identifier hkind
  · obtain ⟨part, hpart, hsubset⟩ := Many.exists_derives h _ hitem
    cases hpart with
    | @character keyword name literal _ _ hliteral =>
      exact (hspelled literal (hsubset literal (by simp))).character hliteral
  · obtain ⟨part, hpart, hsubset⟩ := Many.exists_derives h _ hitem
    obtain ⟨body, hbody, hinner⟩ := hpart.exists_lines
    obtain ⟨row, hrow, hinmost⟩ := hbody.exists_derives line hline
    exact hrow.wellSpelled fun token htoken =>
      hspelled token (hsubset token (hinner token (hinmost token htoken)))

/-! ### From derivations to automata -/

namespace Tree

variable {tree : Tree} {automaton : Automaton}

theorem WellSpelled.length_symbol? (h : tree.WellSpelled) {symbol : Symbol} {value : String}
    (hliteral : ∀ value, symbol = .literal value → value.length = 1)
    (hvalue : tree.symbol? symbol = some value) : value.length = 1 := by
  cases symbol with
  | literal literal =>
    obtain rfl := Option.some.inj hvalue
    exact hliteral literal rfl
  | constant name => exact h.constants name value (mem_of_constant? hvalue)

theorem state?_eq_some_iff {block : String × List Line} {entry : String × State} :
    tree.state? block = some entry ↔
      entry.1 = block.1 ∧ block.2.mapM (tree.case? block.1) = some entry.2 := by
  rw [state?, Option.map_eq_map, Option.map_eq_some_iff]
  constructor
  · rintro ⟨cases, hcases, rfl⟩
    exact ⟨rfl, hcases⟩
  · rintro ⟨hname, hcases⟩
    exact ⟨entry.2, hcases, Prod.ext hname.symm rfl⟩

/-- The names of the states are those of the blocks. -/
theorem names_of_mapM_state? {blocks : List (String × List Line)} {states : Table State}
    (h : blocks.mapM tree.state? = some states) : states.names = blocks.map Prod.fst := by
  induction blocks generalizing states with
  | nil =>
    obtain rfl : states = [] := by simpa using h.symm
    rfl
  | cons block blocks ih =>
    simp only [List.mapM_cons, Option.bind_eq_bind, Option.bind_eq_some_iff, Option.pure_def,
      Option.some.injEq] at h
    obtain ⟨entry, hentry, rest, hrest, rfl⟩ := h
    have hnames := ih hrest
    rw [Table.names] at hnames ⊢
    rw [List.map_cons, List.map_cons, hnames, (state?_eq_some_iff.mp hentry).1]

/-- The blocks of a program are what its table lists as states, in order. -/
theorem states_bindings (tree : Tree) : tree.bindings.states = tree.blocks.map Prod.fst := by
  induction tree with
  | nil => rfl
  | cons item tree ih =>
    cases item with
    | character name symbol => exact ih
    | string name text => exact ih
    | state marked name lines => exact congrArg (name :: ·) ih

theorem names_blocks_sublist (tree : Tree) :
    (tree.blocks.map Prod.fst).Sublist (tree.map Item.name) := by
  rw [← states_bindings, ← names_bindings]
  exact List.filter_sublist.map Prod.fst

/-- What a program denotes, piece by piece. -/
theorem automaton?_eq_some_iff :
    tree.automaton? = some automaton ↔
      tree.initial? = some automaton.initial ∧
        tree.blocks.mapM tree.state? = some automaton.states := by
  simp only [automaton?, Option.bind_eq_bind, Option.bind_eq_some_iff, Option.pure_def,
    Option.some.injEq]
  constructor
  · rintro ⟨initial, hinitial, states, hstates, rfl⟩
    exact ⟨hinitial, hstates⟩
  · rintro ⟨hinitial, hstates⟩
    exact ⟨_, hinitial, _, hstates, rfl⟩

/-- Every state of the automaton is that of a block. -/
theorem exists_block (hdenotes : tree.automaton? = some automaton) {entry : String × State}
    (hentry : entry ∈ automaton.states) :
    ∃ marked lines, .state marked entry.1 lines ∈ tree ∧
      lines.mapM (tree.case? entry.1) = some entry.2 := by
  obtain ⟨-, hstates⟩ := automaton?_eq_some_iff.mp hdenotes
  obtain ⟨block, hblock, hstate⟩ := exists_of_mem_mapM hstates hentry
  obtain ⟨hname, hcases⟩ := state?_eq_some_iff.mp hstate
  obtain ⟨marked, hitem⟩ := mem_blocks_iff.mp hblock
  rw [hname]
  exact ⟨marked, block.2, hitem, hcases⟩

theorem names_of_automaton? (hdenotes : tree.automaton? = some automaton) :
    automaton.states.names = tree.blocks.map Prod.fst :=
  names_of_mapM_state? (automaton?_eq_some_iff.mp hdenotes).2

theorem mem_names_of_automaton? (hdenotes : tree.automaton? = some automaton) {marked : Bool}
    {name : String} {lines : List Line} (hitem : .state marked name lines ∈ tree) :
    name ∈ automaton.states.names := by
  rw [names_of_automaton? hdenotes]
  exact List.mem_map_of_mem (mem_blocks_iff.mpr ⟨marked, hitem⟩)

/-- A valid program in which names and symbols are well spelled denotes a well-formed
automaton. -/
theorem Valid.wellFormed (hvalid : tree.Valid) (hspelled : tree.WellSpelled)
    (hdenotes : tree.automaton? = some automaton) : automaton.WellFormed := by
  have hdistinct := hvalid.distinct
  refine ⟨?_, ?_, fun name hname => ?_, fun entry hentry => ?_, fun entry hentry case hcase => ?_,
    fun entry hentry case hcase => ?_⟩
  · rw [names_of_automaton? hdenotes]
    exact hdistinct.sublist (names_blocks_sublist tree)
  · obtain ⟨lines, hitem⟩ := initial?_mem (automaton?_eq_some_iff.mp hdenotes).1
    exact mem_names_of_automaton? hdenotes hitem
  · rw [names_of_automaton? hdenotes] at hname
    obtain ⟨item, hitem, rfl⟩ := List.mem_map.mp ((names_blocks_sublist tree).subset hname)
    exact hspelled.names item hitem
  · obtain ⟨marked, lines, hitem, hcases⟩ := exists_block hdenotes hentry
    have hlines := hvalid.lines marked entry.1 lines hitem
    exact ((resolve_distinct_iff hdistinct).mpr ⟨hlines, hcases⟩).2
  · obtain ⟨marked, lines, hitem, hcases⟩ := exists_block hdenotes hentry
    obtain ⟨line, hline, hcase⟩ := exists_of_mem_mapM hcases hcase
    obtain ⟨symbol, replacement, hsymbol, hreplacement, rfl⟩ := case?_eq_some_iff.mp hcase
    have hliteral := hspelled.lines marked entry.1 lines hitem line hline
    exact ⟨hspelled.length_symbol? (fun value hvalue => hliteral value (Or.inl hvalue)) hsymbol,
      hspelled.length_symbol? (fun value hvalue => hliteral value (Or.inr hvalue)) hreplacement⟩
  · obtain ⟨marked, lines, hitem, hcases⟩ := exists_block hdenotes hentry
    obtain ⟨line, hline, hcase⟩ := exists_of_mem_mapM hcases hcase
    obtain ⟨symbol, replacement, -, -, rfl⟩ := case?_eq_some_iff.mp hcase
    cases htarget : line.target with
    | self => exact mem_names_of_automaton? hdenotes hitem
    | state name =>
      obtain ⟨other, body, hother⟩ :=
        (hvalid.lines marked entry.1 lines hitem).targets line hline name htarget
      exact mem_names_of_automaton? hdenotes hother

end Tree

end Grammar

/-- The cases of a well-formed automaton write single characters and lead to its states. -/
theorem Automaton.WellFormed.of_case? {automaton : Automaton} (h : automaton.WellFormed)
    {name symbol : String} {case : Case} (hcase : automaton.case? name symbol = some case) :
    case.replacement.length = 1 ∧ case.target ∈ automaton.states.names := by
  obtain ⟨state, hstate, hcase⟩ := Option.bind_eq_some_iff.mp hcase
  have hentry := (Table.lookup_eq_some_iff_mem h.distinct).mp hstate
  have hmem := (Table.lookup_eq_some_iff_mem (h.symbols _ hentry)).mp hcase
  exact ⟨(h.single _ hentry _ hmem).2, h.targets _ hentry _ hmem⟩

/-! ### Texts -/

open Grammar

namespace Compilation

/-- A text without diagnostics has an automaton. -/
theorem ok_of_diagnostics {source : Text} (h : (ofText source).diagnostics = []) :
    (ofText source).ok = true := by
  simp only [ok, ofText] at h ⊢
  split at h
  · exact List.isEmpty_iff.mpr h
  · cases h

/-- A text with which nothing is wrong gives what is read of its tokens. -/
theorem ofText_of_ok {source : Text} (h : (ofText source).ok = true) :
    (Program.ofTokens (Token.ofText source)).diagnostics = [] ∧
      (ofText source).automaton = some (Program.ofTokens (Token.ofText source)).automaton ∧
      (ofText source).bindings = (Program.ofTokens (Token.ofText source)).bindings := by
  simp only [ok, ofText] at h ⊢
  split at h
  · exact ⟨List.isEmpty_iff.mp h, rfl, rfl⟩
  · cases h

/-- A text that compiles gives a well-formed automaton, whose states are the names that are listed
as states. -/
theorem exists_wellFormed_of_ok {source : Text} (h : (ofText source).ok = true) :
    ∃ automaton, (ofText source).automaton = some automaton ∧ automaton.WellFormed ∧
      automaton.states.names = (ofText source).bindings.states := by
  obtain ⟨hdiagnostics, hautomaton, hbindings⟩ := ofText_of_ok h
  have hspelled : ∀ token ∈ (Body.ofTokens (Token.ofText source)).tokens, token.WellSpelled :=
    fun token htoken =>
      Token.ofTextAt_wellSpelled 0 source token (Body.mem_of_mem_tokens htoken)
  obtain ⟨tree, htree, hvalid, hdenotes⟩ := (Program.ofTokens_accepts_iff
    fun token htoken hkind => ((hspelled token htoken).identifier hkind).ne_empty).mp
      ⟨hdiagnostics, rfl⟩
  refine ⟨_, hautomaton, hvalid.wellFormed (htree.wellSpelled hspelled) hdenotes, ?_⟩
  -- the table of the declaration pass is that of the derivation
  obtain ⟨hdistinct, htable⟩ := Program.declarations_of_derives htree
  have hsame : (Program.ofTokens (Token.ofText source)).bindings = tree.bindings :=
    htable (hdistinct.mpr hvalid.distinct)
  rw [hbindings, hsame, Tree.states_bindings, Tree.names_of_automaton? hdenotes]

end Compilation

end TapeMachine
