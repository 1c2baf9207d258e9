import Mathlib.Data.List.Nodup
import TapeMachine.Program.Basic
import TapeMachine.Proofs.Program.Reading
import TapeMachine.Proofs.Token.Spelling

/-!
# TapeMachine.Proofs.Program.Acceptance

A program is accepted exactly if it is derivable and valid, and then it is read as what it denotes.

`Proofs/Program/Reading` relates the definition pass to derivations, relative to a table of names.
Here the table is that of the declaration pass: on the tokens of a derivation it lists what the
derivation declares (`Declaration.ofTokens_tree`), so entering one definition after the other comes
down to the conditions of `Grammar.Tree.Valid` (`Grammar.Tree.foldlM_enter?_iff`).

* `Program.ofTokens_accepts_iff` — for token lists whose identifiers have names.
* `Compilation.ofText_accepts_iff` — for texts without lexical faults.
-/

namespace TapeMachine

open Grammar

/-! ### The declaration pass -/

/-- What the name of a definition stands for. -/
def Grammar.Item.binding : Item → Binding
  | .character _ symbol => .character symbol
  | .string _ text => .string text
  | .state _ _ _ => .state

/-- The names of a program, with what they stand for. -/
def Grammar.Tree.bindings (tree : Tree) : Bindings :=
  tree.map fun item => (item.name, item.binding)

/-- Nothing in a row of lines starts a definition. -/
theorem Grammar.startsDefinition_of_lines {lines : List Line} {tokens : List Token}
    (h : Many Line.Derives lines tokens) :
    ∀ token ∈ tokens, token.startsDefinition = false := by
  have hkinds : ∀ kind ∈ lineKinds, kind.startsDefinition = false := by decide
  exact h.forall_mem fun _ _ hline token htoken => hkinds _ (hline.kind_mem token htoken)

namespace Declaration

/-- Tokens that start no definition declare nothing. -/
theorem ofTokens_skip {tokens : List Token}
    (h : ∀ token ∈ tokens, token.startsDefinition = false) (rest : List Token) :
    ofTokens (tokens ++ rest) = ofTokens rest := by
  induction tokens with
  | nil => rfl
  | cons token tokens ih =>
    have hread : readAt token (tokens ++ rest) = (none, tokens ++ rest) := by
      have htoken := h token (by simp)
      unfold Token.startsDefinition at htoken
      unfold readAt
      split <;> simp_all [Token.Kind.startsDefinition]
    rw [List.cons_append, ofTokens_cons, hread]
    simpa using ih fun token htoken => h token (by simp [htoken])

/-- A definition declares its name, and nothing else in it does. -/
theorem ofTokens_item {item : Item} {tokens : List Token} (h : item.Derives tokens)
    (rest : List Token) :
    ∃ declaration, ofTokens (tokens ++ rest) = declaration :: ofTokens rest ∧
      declaration.name.value = item.name ∧ declaration.binding = item.binding := by
  induction h with
  | @character keyword name literal hkeyword hname hliteral =>
    refine ⟨{ name, binding := .character literal.value }, ?_, rfl, rfl⟩
    simp [ofTokens_cons, readAt, hkeyword, readConstant, hname, readLiteral, Binding.ofLiteral?,
      hliteral]
  | @string keyword name literal hkeyword hname hliteral =>
    refine ⟨{ name, binding := .string literal.value }, ?_, rfl, rfl⟩
    simp [ofTokens_cons, readAt, hkeyword, readConstant, hname, readLiteral, Binding.ofLiteral?,
      hliteral]
  | @state keyword name opening closing lines body hkeyword hname hopening hbody hclosing =>
    refine ⟨{ name, binding := .state }, ?_, rfl, rfl⟩
    have hblock : ∀ token ∈ opening :: (body ++ [closing]), token.startsDefinition = false := by
      have hbody := startsDefinition_of_lines hbody
      simp only [List.mem_cons, List.mem_append, List.not_mem_nil, or_false]
      intro token hmem
      rcases hmem with rfl | htoken | rfl
      · simp [Token.startsDefinition, Token.Kind.startsDefinition, hopening]
      · exact hbody token htoken
      · simp [Token.startsDefinition, Token.Kind.startsDefinition, hclosing]
    have hread : ∀ tokens, readAt keyword (name :: tokens) =
        (some { name, binding := .state }, tokens) := by
      simp [readAt, hkeyword, readState, hname]
    rw [List.cons_append, List.cons_append, ofTokens_cons, hread, ofTokens_skip hblock]
    rfl
  | @initial mark name lines tokens hmark hstate ih =>
    -- behind the mark, the walk goes on as if it were not there
    have hskip : ofTokens (mark :: (tokens ++ rest)) = ofTokens (tokens ++ rest) := by
      cases hstate with
      | state hkeyword hname _ _ _ =>
        simp only [List.cons_append, ofTokens_cons, readAt, hmark, hkeyword, readInitial, if_true]
    rw [List.cons_append, hskip]
    exact ih

/-- The declarations among the tokens of a program are those of its definitions. -/
theorem ofTokens_tree {tree : Tree} {tokens : List Token} (h : tree.Derives tokens) :
    (ofTokens tokens).map (fun declaration => (declaration.name.value, declaration.binding)) =
      tree.bindings := by
  rw [Tree.Derives] at h
  induction h with
  | nil => simp [Tree.bindings]
  | cons hitem _ ih =>
    obtain ⟨declaration, hdeclaration, hname, hbinding⟩ := ofTokens_item hitem _
    rw [hdeclaration, List.map_cons, ih, hname, hbinding]
    rfl

/-! ### The table of names -/

/-- A fresh name is entered at the end. -/
theorem enter_of_fresh {bindings : Bindings} {declaration : Declaration}
    (h : declaration.name.value ∉ bindings.names) :
    enter bindings declaration = bindings.add declaration.name.value declaration.binding := by
  rw [enter, (Table.has_eq_false_iff _ _).mpr h]
  rfl

/-- No name is declared again exactly if all names are distinct, and then the table lists them. -/
theorem repeatedFrom_eq_nil_iff (taken : Bindings) (declarations : List Declaration) :
    repeatedFrom taken declarations = [] ↔
      (declarations.map fun declaration => declaration.name.value).Nodup ∧
        ∀ declaration ∈ declarations, declaration.name.value ∉ taken.names := by
  induction declarations generalizing taken with
  | nil => simp [repeatedFrom]
  | cons declaration rest ih =>
    by_cases htaken : declaration.name.value ∈ taken.names
    · simp [repeatedFrom, (Table.has_eq_true_iff _ _).mpr htaken, htaken]
    · have hhas := (Table.has_eq_false_iff _ _).mpr htaken
      simp only [repeatedFrom, hhas, Bool.false_eq_true, if_false, ih, enter_of_fresh htaken,
        Table.names_add, List.mem_append, List.map_cons, List.nodup_cons, List.mem_cons,
        List.not_mem_nil, or_false, List.mem_map, forall_eq_or_imp]
      constructor
      · intro hgiven
        obtain ⟨hnodup, hfresh⟩ := hgiven
        refine ⟨⟨?_, hnodup⟩, htaken, fun other hother => fun h => hfresh other hother (.inl h)⟩
        intro hgiven
        obtain ⟨other, hother, heq⟩ := hgiven
        exact hfresh other hother (.inr heq)
      · intro hgiven
        obtain ⟨⟨hnew, hnodup⟩, -, hfresh⟩ := hgiven
        refine ⟨hnodup, fun other hother => ?_⟩
        intro hgiven
        rcases hgiven with h | h
        · exact hfresh other hother h
        · exact hnew ⟨other, hother, h⟩

theorem foldl_enter_of_distinct {taken : Bindings} {declarations : List Declaration}
    (h : repeatedFrom taken declarations = []) :
    declarations.foldl enter taken =
      taken ++ declarations.map fun declaration =>
        (declaration.name.value, declaration.binding) := by
  induction declarations generalizing taken with
  | nil => simp
  | cons declaration rest ih =>
    have hfresh : declaration.name.value ∉ taken.names :=
      ((repeatedFrom_eq_nil_iff taken _).mp h).2 declaration (by simp)
    have hhas := (Table.has_eq_false_iff _ _).mpr hfresh
    simp only [repeatedFrom, hhas, Bool.false_eq_true, if_false] at h
    rw [List.foldl_cons, ih h, enter_of_fresh hfresh]
    simp [Table.add]

end Declaration

/-! ### Entering one definition after the other -/

/-- A row of options has values exactly if it is a row of values. -/
theorem mapM_eq_some_iff {α β : Type} {f : α → Option β} {xs : List α} {ys : List β} :
    xs.mapM f = some ys ↔ xs.map f = ys.map some := by
  induction xs generalizing ys with
  | nil => cases ys <;> simp
  | cons x xs ih =>
    simp only [List.mapM_cons, Option.bind_eq_bind, Option.pure_def, Option.bind_eq_some_iff,
      Option.some.injEq, ih, List.map_cons]
    constructor
    · intro hgiven
      obtain ⟨y, hy, ys, hys, rfl⟩ := hgiven
      rw [hy, hys, List.map_cons]
    · intro h
      cases ys with
      | nil => simp at h
      | cons y ys =>
        obtain ⟨hy, hys⟩ := List.cons.inj h
        exact ⟨y, hy, ys, hys, rfl⟩

theorem exists_mapM_eq_some {α β : Type} {f : α → Option β} {xs : List α}
    (h : ∀ x ∈ xs, ∃ y, f x = some y) : ∃ ys, xs.mapM f = some ys := by
  induction xs with
  | nil => exact ⟨[], rfl⟩
  | cons x xs ih =>
    obtain ⟨y, hy⟩ := h x (by simp)
    obtain ⟨ys, hys⟩ := ih fun x hx => h x (by simp [hx])
    exact ⟨y :: ys, by simp [hy, hys]⟩

namespace Grammar

variable {bindings : Bindings}

/-- Lines can be entered exactly if they resolve, to symbols that are distinct and new. -/
theorem foldlM_line_enter?_iff {owner : String} {lines : List Line} {state result : State} :
    lines.foldlM (Line.enter? bindings owner) state = some result ↔
      ∃ entries : State, lines.mapM (Line.resolve? bindings owner) = some entries ∧
        entries.names.Nodup ∧ (∀ name ∈ entries.names, name ∉ state.names) ∧
        result = state ++ entries := by
  induction lines generalizing state with
  | nil =>
    simp only [List.foldlM_nil, Option.pure_def, Option.some.injEq, List.mapM_nil]
    constructor
    · rintro rfl
      exact ⟨[], rfl, by simp⟩
    · intro hgiven
      obtain ⟨entries, rfl, -, -, rfl⟩ := hgiven
      simp
  | cons line lines ih =>
    simp only [List.foldlM_cons, List.mapM_cons, Option.bind_eq_bind, Option.bind_eq_some_iff,
      Option.pure_def, Option.some.injEq, Line.enter?_eq_some_iff, Table.has_eq_false_iff]
    constructor
    · intro hgiven
      obtain ⟨_, ⟨entry, hentry, hnew, rfl⟩, hrest⟩ := hgiven
      obtain ⟨entries, hentries, hnodup, hfresh, rfl⟩ := ih.mp hrest
      simp only [Table.names_add, List.mem_append, List.mem_singleton, not_or] at hfresh
      refine ⟨entry :: entries, ⟨entry, hentry, entries, hentries, rfl⟩, ?_, ?_, ?_⟩
      -- later symbols are new to the state with this one in it, so they differ from it
      · exact List.nodup_cons.mpr ⟨fun h => (hfresh _ h).2 rfl, hnodup⟩
      · intro name hmem
        rcases hmem with _ | ⟨_, hname⟩
        · exact hnew
        · exact (hfresh name hname).1
      · simp [Table.add]
    · intro hgiven
      obtain ⟨_, ⟨entry, hentry, entries, hentries, rfl⟩, hnodup, hfresh, rfl⟩ := hgiven
      obtain ⟨hfirst, hnodup⟩ := List.nodup_cons.mp hnodup
      refine ⟨_, ⟨entry, hentry, hfresh _ List.mem_cons_self, rfl⟩, ?_⟩
      refine ih.mpr ⟨entries, hentries, hnodup, ?_, by simp [Table.add]⟩
      intro name hname
      simp only [Table.names_add, List.mem_append, List.mem_singleton, not_or]
      refine ⟨hfresh name (List.mem_cons_of_mem _ hname), ?_⟩
      rintro rfl
      exact hfirst hname

/-- The state of a block, with its name. -/
def resolveBlock? (bindings : Bindings) (block : String × List Line) : Option (String × State) :=
  (block.1, ·) <$> block.2.mapM (Line.resolve? bindings block.1)

theorem mapM_resolveBlock?_cons_state {marked : Bool} {name : String} {lines : List Line}
    {tree : Tree} {states : Table State} :
    (Tree.blocks (.state marked name lines :: tree)).mapM (resolveBlock? bindings) = some states ↔
      ∃ (entries : State) (rest : Table State),
        lines.mapM (Line.resolve? bindings name) = some entries ∧
        (Tree.blocks tree).mapM (resolveBlock? bindings) = some rest ∧
        states = (name, entries) :: rest := by
  simp only [Tree.blocks, List.filterMap_cons, List.mapM_cons, resolveBlock?, Option.bind_eq_bind,
    Option.bind_eq_some_iff, Option.map_eq_map, Option.map_eq_some_iff, Option.pure_def,
    Option.some.injEq]
  constructor
  · intro h
    obtain ⟨_, ⟨entries, hentries, rfl⟩, rest, hrest, rfl⟩ := h
    exact ⟨entries, rest, hentries, hrest, rfl⟩
  · intro h
    obtain ⟨entries, rest, hentries, hrest, rfl⟩ := h
    exact ⟨_, ⟨entries, hentries, rfl⟩, rest, hrest, rfl⟩

/-- A state is entered exactly if its mark is free and its block resolves to distinct symbols. -/
theorem Item.enter?_state_iff {marked : Bool} {name : String} {lines : List Line}
    {automaton result : Automaton} (hbound : bindings.isState name = true)
    (hnew : name ∉ automaton.states.names) :
    (Item.state marked name lines).enter? bindings automaton = some result ↔
      (marked = true → automaton.initial = "") ∧
      ∃ state : State, lines.mapM (Line.resolve? bindings name) = some state ∧
        state.names.Nodup ∧
        result =
          { initial := if marked then name else automaton.initial
            states := automaton.states.add name state } := by
  have hhas := (Table.has_eq_false_iff _ _).mpr hnew
  have hregister : ∀ state, Definition.register bindings automaton marked name state =
      { initial := if marked then name else automaton.initial
        states := automaton.states.add name state } := by
    simp [Definition.register, hbound, hhas]
  have hmark : (marked && automaton.initial != "") = false ↔
      (marked = true → automaton.initial = "") := by
    cases marked <;> simp
  simp only [Item.enter?, Option.ite_none_left_eq_some, Bool.not_eq_true, hmark,
    Option.map_eq_some_iff, foldlM_line_enter?_iff, hregister]
  refine and_congr_right fun _ => ?_
  constructor
  · intro h
    obtain ⟨entries, ⟨_, hentries, hnodup, -, rfl⟩, rfl⟩ := h
    exact ⟨entries, hentries, hnodup, rfl⟩
  · intro h
    obtain ⟨entries, hentries, hnodup, rfl⟩ := h
    exact ⟨entries, ⟨entries, hentries, hnodup, by simp, rfl⟩, rfl⟩

namespace Tree

/-- Whether the marks of some definitions fit an automaton with the given initial state: at most
one mark where there is none yet, and no mark where there is one. -/
def MarksFit (tree : Tree) (initial : String) : Prop :=
  tree.countP Item.isInitial + (if initial = "" then 0 else 1) ≤ 1

theorem initial?_eq_none_iff {tree : Tree} :
    tree.initial? = none ↔ tree.countP Item.isInitial = 0 := by
  simp only [initial?, List.findSome?_eq_none_iff, List.countP_eq_zero]
  refine forall_congr' fun item => forall_congr' fun _ => ?_
  cases item with
  | state marked name lines => cases marked <;> simp [Item.isInitial]
  | character name symbol => simp [Item.isInitial]
  | string name text => simp [Item.isInitial]

theorem marksFit_cons_state {marked : Bool} {name : String} {lines : List Line} {tree : Tree}
    {initial : String} (hname : name ≠ "") :
    MarksFit (.state marked name lines :: tree) initial ↔
      (marked = true → initial = "") ∧ MarksFit tree (if marked then name else initial) := by
  cases marked with
  | false => simp [MarksFit, Item.isInitial]
  | true =>
    simp only [MarksFit, List.countP_cons, Item.isInitial, if_true, true_implies, hname, if_false]
    by_cases hinitial : initial = "" <;> simp [hinitial]

/-- Where the marks fit, the first mark is the only one. -/
theorem initial?_cons_state {marked : Bool} {name : String} {lines : List Line} {tree : Tree}
    {initial : String} (hname : name ≠ "")
    (h : MarksFit tree (if marked then name else initial)) :
    (initial? (.state marked name lines :: tree)).getD initial =
      (initial? tree).getD (if marked then name else initial) := by
  cases marked with
  | false => simp [initial?]
  | true =>
    have hnone : initial? tree = none := by
      rw [initial?_eq_none_iff]
      simpa [MarksFit, hname] using h
    rw [hnone]
    simp [initial?]

end Tree

/-- Definitions can be entered exactly if their blocks resolve and their marks fit. -/
theorem foldlM_item_enter?_iff {tree : Tree} {automaton result : Automaton}
    (hnamed : ∀ item ∈ tree, item.name ≠ "")
    (hbound : ∀ marked name lines, .state marked name lines ∈ tree → bindings.isState name = true)
    (hdistinct : (tree.map Item.name).Nodup)
    (hnew : ∀ item ∈ tree, item.name ∉ automaton.states.names) :
    tree.foldlM (Item.enter? bindings) automaton = some result ↔
      tree.MarksFit automaton.initial ∧
      ∃ states : Table State, tree.blocks.mapM (resolveBlock? bindings) = some states ∧
        (∀ entry ∈ states, entry.2.names.Nodup) ∧
        result =
          { initial := tree.initial?.getD automaton.initial
            states := automaton.states ++ states } := by
  induction tree generalizing automaton with
  | nil =>
    simp only [List.foldlM_nil, Option.pure_def, Option.some.injEq, Tree.MarksFit, Tree.blocks,
      Tree.initial?, List.countP_nil, List.filterMap_nil, List.mapM_nil, List.findSome?_nil]
    constructor
    · rintro rfl
      exact ⟨by split <;> simp, [], rfl, by simp, by simp⟩
    · intro hgiven
      obtain ⟨-, states, rfl, -, rfl⟩ := hgiven
      simp
  | cons item tree ih =>
    obtain ⟨hfirst, hdistinct⟩ := List.nodup_cons.mp hdistinct
    have hrest := fun automaton => @ih automaton (fun other h => hnamed other (.tail _ h))
      (fun _ _ _ h => hbound _ _ _ (.tail _ h)) hdistinct
    rw [List.foldlM_cons, Option.bind_eq_bind, Option.bind_eq_some_iff]
    cases item with
    | character name symbol =>
      simpa [Item.enter?, Tree.MarksFit, Tree.blocks, Tree.initial?, Item.isInitial] using
        hrest automaton fun other h => hnew other (.tail _ h)
    | string name text =>
      simpa [Item.enter?, Tree.MarksFit, Tree.blocks, Tree.initial?, Item.isInitial] using
        hrest automaton fun other h => hnew other (.tail _ h)
    | state marked name lines =>
      have hname : name ≠ "" := hnamed _ List.mem_cons_self
      have henter := fun result => @Item.enter?_state_iff bindings marked name lines automaton
        result (hbound _ _ _ List.mem_cons_self) (hnew _ List.mem_cons_self)
      -- what is entered later is new also to the automaton that has this state
      have hlater : ∀ state : State, ∀ other ∈ tree,
          other.name ∉ (automaton.states.add name state).names := by
        intro state other hother
        rw [Table.names_add, List.mem_append, List.mem_singleton, not_or]
        refine ⟨hnew other (.tail _ hother), ?_⟩
        rintro rfl
        exact hfirst (List.mem_map.mpr ⟨other, hother, rfl⟩)
      simp only [henter, Tree.marksFit_cons_state hname, mapM_resolveBlock?_cons_state]
      constructor
      · intro hgiven
        obtain ⟨_, ⟨hmark, entries, hentries, hnodup, rfl⟩, hfold⟩ := hgiven
        obtain ⟨hfit, states, hstates, hnodups, rfl⟩ := (hrest _ (hlater entries)).mp hfold
        refine ⟨⟨hmark, hfit⟩, _, ⟨entries, states, hentries, hstates, rfl⟩, ?_, ?_⟩
        · intro entry hmem
          rcases hmem with _ | ⟨_, hentry⟩
          · exact hnodup
          · exact hnodups entry hentry
        · rw [Tree.initial?_cons_state hname hfit]
          simp [Table.add]
      · intro hgiven
        obtain ⟨⟨hmark, hfit⟩, _, ⟨entries, states, hentries, hstates, rfl⟩, hnodups, rfl⟩ := hgiven
        refine ⟨_, ⟨hmark, entries, hentries, hnodups _ List.mem_cons_self, rfl⟩, ?_⟩
        refine (hrest _ (hlater entries)).mpr ⟨hfit, states, hstates, ?_, ?_⟩
        · exact fun entry hentry => hnodups entry (.tail _ hentry)
        · rw [Tree.initial?_cons_state hname hfit]
          simp [Table.add]

/-! ### The names of a program -/

namespace Tree

variable {tree : Tree}

theorem names_bindings (tree : Tree) : tree.bindings.names = tree.map Item.name := by
  simp [bindings, Table.names]

/-- Where no name is repeated, the table of a program gives each name its definition. -/
theorem lookup_bindings_iff (hdistinct : (tree.map Item.name).Nodup) {name : String}
    {binding : Binding} :
    tree.bindings.lookup name = some binding ↔
      ∃ item ∈ tree, item.name = name ∧ item.binding = binding := by
  rw [Table.lookup_eq_some_iff_mem (by rwa [names_bindings]), bindings, List.mem_map]
  simp only [Prod.mk.injEq]

theorem isState_bindings_iff (hdistinct : (tree.map Item.name).Nodup) {name : String} :
    tree.bindings.isState name = true ↔ ∃ marked lines, .state marked name lines ∈ tree := by
  simp only [Bindings.isState, Option.any_eq_true, lookup_bindings_iff hdistinct]
  constructor
  · intro h
    obtain ⟨_, ⟨item, hitem, rfl, rfl⟩, hstate⟩ := h
    cases item with
    | state marked name lines => exact ⟨marked, lines, hitem⟩
    | character name symbol => simp [Item.binding, Binding.isState] at hstate
    | string name text => simp [Item.binding, Binding.isState] at hstate
  · intro h
    obtain ⟨marked, lines, hitem⟩ := h
    exact ⟨.state, ⟨_, hitem, rfl, rfl⟩, rfl⟩

theorem symbol?_bindings_iff (hdistinct : (tree.map Item.name).Nodup) {name symbol : String} :
    (tree.bindings.lookup name).bind Binding.symbol? = some symbol ↔
      .character name symbol ∈ tree := by
  simp only [Option.bind_eq_some_iff, lookup_bindings_iff hdistinct]
  constructor
  · intro h
    obtain ⟨_, ⟨item, hitem, rfl, rfl⟩, hsymbol⟩ := h
    cases item with
    | character name value =>
      obtain rfl : value = symbol := by simpa [Item.binding, Binding.symbol?] using hsymbol
      exact hitem
    | state marked name lines => simp [Item.binding, Binding.symbol?] at hsymbol
    | string name text => simp [Item.binding, Binding.symbol?] at hsymbol
  · intro hitem
    exact ⟨.character symbol, ⟨_, hitem, rfl, rfl⟩, rfl⟩

theorem mem_of_constant? {name symbol : String} (h : tree.constant? name = some symbol) :
    .character name symbol ∈ tree := by
  obtain ⟨item, hitem, hsymbol⟩ := List.exists_of_findSome?_eq_some h
  cases item with
  | character key value =>
    simp only [Option.ite_none_right_eq_some, Option.some.injEq] at hsymbol
    obtain ⟨rfl, rfl⟩ := hsymbol
    exact hitem
  | state marked name lines => simp at hsymbol
  | string name text => simp at hsymbol

/-- A constant of the program is found under its name. -/
theorem exists_constant? {name symbol : String} (h : .character name symbol ∈ tree) :
    ∃ value, tree.constant? name = some value := by
  cases hfind : tree.constant? name with
  | some value => exact ⟨value, rfl⟩
  | none =>
    rw [constant?, List.findSome?_eq_none_iff] at hfind
    simpa using hfind _ h

/-- The table and the program agree on what a symbol stands for. -/
theorem resolve?_eq_symbol? (hdistinct : (tree.map Item.name).Nodup) (symbol : Symbol) :
    symbol.resolve? tree.bindings = tree.symbol? symbol := by
  cases symbol with
  | literal symbol => rfl
  | constant name =>
    rw [Symbol.resolve?, symbol?]
    cases hfind : tree.constant? name with
    | some value => exact (symbol?_bindings_iff hdistinct).mpr (mem_of_constant? hfind)
    | none =>
      rw [Option.eq_none_iff_forall_ne_some]
      intro value hvalue
      obtain ⟨_, hsome⟩ := exists_constant? ((symbol?_bindings_iff hdistinct).mp hvalue)
      rw [hfind] at hsome
      exact absurd hsome (by simp)

/-! ### The conditions on names -/

/-- A line resolves exactly if it denotes a case and its target is a state. -/
theorem resolve?_line_iff (hdistinct : (tree.map Item.name).Nodup) {owner : String} {line : Line}
    {entry : String × Case} :
    line.resolve? tree.bindings owner = some entry ↔
      tree.case? owner line = some entry ∧
        ∀ name, line.target = .state name → ∃ marked lines, .state marked name lines ∈ tree := by
  simp only [Line.resolve?, case?, resolve?_eq_symbol? hdistinct, Option.bind_eq_bind,
    Option.bind_eq_some_iff, Option.pure_def, Option.some.injEq]
  cases htarget : line.target with
  | self => simp [Target.resolve?]
  | state name =>
    simp only [Target.resolve?, Option.ite_none_right_eq_some, isState_bindings_iff hdistinct,
      Option.some.injEq, Target.state.injEq, forall_eq']
    constructor
    · intro h
      obtain ⟨symbol, hsymbol, replacement, hreplacement, _, ⟨hstate, rfl⟩, rfl⟩ := h
      exact ⟨⟨symbol, hsymbol, replacement, hreplacement, rfl⟩, hstate⟩
    · intro h
      obtain ⟨⟨symbol, hsymbol, replacement, hreplacement, rfl⟩, hstate⟩ := h
      exact ⟨symbol, hsymbol, replacement, hreplacement, name, ⟨hstate, rfl⟩, rfl⟩

theorem mapM_resolve?_iff (hdistinct : (tree.map Item.name).Nodup) {owner : String}
    {lines : List Line} {entries : State} :
    lines.mapM (Line.resolve? tree.bindings owner) = some entries ↔
      lines.mapM (tree.case? owner) = some entries ∧
        ∀ line ∈ lines, ∀ name, line.target = .state name →
          ∃ marked lines, .state marked name lines ∈ tree := by
  induction lines generalizing entries with
  | nil => simp
  | cons line lines ih =>
    simp only [List.mapM_cons, Option.bind_eq_bind, Option.bind_eq_some_iff, Option.pure_def,
      Option.some.injEq, resolve?_line_iff hdistinct, ih, List.mem_cons, forall_eq_or_imp]
    constructor
    · intro h
      obtain ⟨entry, ⟨hentry, htarget⟩, rest, ⟨hrest, htargets⟩, rfl⟩ := h
      exact ⟨⟨entry, hentry, rest, hrest, rfl⟩, htarget, htargets⟩
    · intro h
      obtain ⟨⟨entry, hentry, rest, hrest, rfl⟩, htarget, htargets⟩ := h
      exact ⟨entry, ⟨hentry, htarget⟩, rest, ⟨hrest, htargets⟩, rfl⟩

theorem case?_eq_some_iff {owner : String} {line : Line} {entry : String × Case} :
    tree.case? owner line = some entry ↔
      ∃ symbol replacement, tree.symbol? line.input = some symbol ∧
        tree.symbol? line.output = some replacement ∧
        entry = (symbol,
          { replacement
            direction := line.direction
            target :=
              match line.target with
              | .self => owner
              | .state name => name }) := by
  simp only [case?, Option.bind_eq_bind, Option.bind_eq_some_iff, Option.pure_def,
    Option.some.injEq]
  constructor
  · intro h
    obtain ⟨symbol, hsymbol, replacement, hreplacement, rfl⟩ := h
    exact ⟨symbol, replacement, hsymbol, hreplacement, rfl⟩
  · intro h
    obtain ⟨symbol, replacement, hsymbol, hreplacement, rfl⟩ := h
    exact ⟨symbol, hsymbol, replacement, hreplacement, rfl⟩

/-- The symbols of the cases are those of the lines. -/
theorem names_of_mapM_case? {owner : String} {lines : List Line} {entries : State}
    (h : lines.mapM (tree.case? owner) = some entries) :
    entries.names.map some = lines.map fun line => tree.symbol? line.input := by
  induction lines generalizing entries with
  | nil =>
    obtain rfl : entries = [] := by simpa using h.symm
    rfl
  | cons line lines ih =>
    simp only [List.mapM_cons, Option.bind_eq_bind, Option.bind_eq_some_iff, Option.pure_def,
      Option.some.injEq] at h
    obtain ⟨entry, hentry, rest, hrest, rfl⟩ := h
    obtain ⟨symbol, replacement, hsymbol, -, rfl⟩ := case?_eq_some_iff.mp hentry
    have hnames := ih hrest
    rw [Table.names] at hnames ⊢
    rw [List.map_cons, List.map_cons, List.map_cons, hnames, hsymbol]

/-- A symbol has a value exactly if it is a literal or names a character constant. -/
theorem exists_symbol?_iff {symbol : Symbol} :
    (∃ value, tree.symbol? symbol = some value) ↔
      ∀ name, symbol = .constant name → ∃ value, .character name value ∈ tree := by
  cases symbol with
  | literal value => simp [symbol?]
  | constant name =>
    simp only [symbol?, Symbol.constant.injEq, forall_eq']
    exact ⟨fun ⟨value, h⟩ => ⟨value, mem_of_constant? h⟩, fun ⟨_, h⟩ => exists_constant? h⟩

/-- Lines resolve to distinct symbols exactly if they are valid, and then to what they denote. -/
theorem resolve_distinct_iff (hdistinct : (tree.map Item.name).Nodup) {owner : String}
    {lines : List Line} {entries : State} :
    lines.mapM (Line.resolve? tree.bindings owner) = some entries ∧ entries.names.Nodup ↔
      tree.ValidLines lines ∧ lines.mapM (tree.case? owner) = some entries := by
  rw [mapM_resolve?_iff hdistinct]
  constructor
  · intro h
    obtain ⟨⟨hcases, htargets⟩, hnodup⟩ := h
    refine ⟨⟨?_, htargets, ?_⟩, hcases⟩
    · intro line hline name hname
      have hmem : tree.case? owner line ∈ lines.map (tree.case? owner) :=
        List.mem_map_of_mem hline
      rw [mapM_eq_some_iff.mp hcases, List.mem_map] at hmem
      obtain ⟨entry, -, hentry⟩ := hmem
      obtain ⟨symbol, replacement, hinput, houtput, -⟩ := case?_eq_some_iff.mp hentry.symm
      rcases hname with hname | hname
      · exact exists_symbol?_iff.mp ⟨symbol, hinput⟩ name hname
      · exact exists_symbol?_iff.mp ⟨replacement, houtput⟩ name hname
    · rw [← names_of_mapM_case? hcases]
      exact (List.nodup_map_iff fun _ _ => Option.some.inj).mpr hnodup
  · intro h
    obtain ⟨hvalid, hcases⟩ := h
    refine ⟨⟨hcases, hvalid.targets⟩, ?_⟩
    have hinputs := hvalid.inputs
    rw [← names_of_mapM_case? hcases] at hinputs
    exact (List.nodup_map_iff fun _ _ => Option.some.inj).mp hinputs

/-- The same for the blocks of a program. -/
theorem resolveBlocks_iff (hdistinct : (tree.map Item.name).Nodup)
    {blocks : List (String × List Line)} {states : Table State} :
    blocks.mapM (resolveBlock? tree.bindings) = some states ∧
        (∀ entry ∈ states, entry.2.names.Nodup) ↔
      (∀ block ∈ blocks, tree.ValidLines block.2) ∧ blocks.mapM tree.state? = some states := by
  induction blocks generalizing states with
  | nil =>
    simp only [List.mapM_nil, Option.pure_def, Option.some.injEq, List.not_mem_nil, false_implies,
      implies_true, true_and, and_iff_left_iff_imp]
    rintro rfl
    simp
  | cons block blocks ih =>
    simp only [List.mapM_cons, Option.bind_eq_bind, Option.bind_eq_some_iff, Option.pure_def,
      Option.some.injEq, resolveBlock?, state?, Option.map_eq_map, Option.map_eq_some_iff,
      List.mem_cons, forall_eq_or_imp]
    constructor
    · intro hgiven
      obtain ⟨⟨_, ⟨entries, hentries, rfl⟩, rest, hrest, rfl⟩, hnodups⟩ := hgiven
      obtain ⟨hvalid, hcases⟩ := (resolve_distinct_iff hdistinct).mp
        ⟨hentries, hnodups _ List.mem_cons_self⟩
      obtain ⟨hvalids, hstates⟩ := ih.mp ⟨hrest, fun entry h => hnodups entry (.tail _ h)⟩
      exact ⟨⟨hvalid, hvalids⟩, _, ⟨entries, hcases, rfl⟩, rest, hstates, rfl⟩
    · intro hgiven
      obtain ⟨⟨hvalid, hvalids⟩, _, ⟨entries, hcases, rfl⟩, rest, hstates, rfl⟩ := hgiven
      obtain ⟨hentries, hnodup⟩ := (resolve_distinct_iff hdistinct).mpr ⟨hvalid, hcases⟩
      obtain ⟨hrest, hnodups⟩ := ih.mpr ⟨hvalids, hstates⟩
      refine ⟨⟨_, ⟨entries, hentries, rfl⟩, rest, hrest, rfl⟩, ?_⟩
      intro entry hmem
      rcases hmem with _ | ⟨_, hentry⟩
      · exact hnodup
      · exact hnodups entry hentry

theorem mem_blocks_iff {owner : String} {lines : List Line} :
    (owner, lines) ∈ tree.blocks ↔ ∃ marked, .state marked owner lines ∈ tree := by
  simp only [blocks, List.mem_filterMap]
  constructor
  · intro h
    obtain ⟨item, hitem, hblock⟩ := h
    cases item with
    | state marked name body =>
      obtain ⟨rfl, rfl⟩ : name = owner ∧ body = lines := by simpa using hblock
      exact ⟨marked, hitem⟩
    | character name symbol => simp at hblock
    | string name text => simp at hblock
  · intro h
    obtain ⟨marked, hitem⟩ := h
    exact ⟨_, hitem, rfl⟩

/-- A valid program denotes an automaton. -/
theorem Valid.exists_automaton? (h : tree.Valid) :
    ∃ automaton, tree.automaton? = some automaton := by
  obtain ⟨name, hname⟩ : ∃ name, tree.initial? = some name := by
    rw [← Option.ne_none_iff_exists', Ne, initial?_eq_none_iff, h.initial]
    exact Nat.one_ne_zero
  obtain ⟨states, hstates⟩ : ∃ states, tree.blocks.mapM tree.state? = some states := by
    refine exists_mapM_eq_some fun ⟨owner, lines⟩ hblock => ?_
    obtain ⟨marked, hitem⟩ := mem_blocks_iff.mp hblock
    have hsymbols := (h.lines marked owner lines hitem).symbols
    obtain ⟨entries, hentries⟩ : ∃ entries, lines.mapM (tree.case? owner) = some entries := by
      refine exists_mapM_eq_some fun line hline => ?_
      obtain ⟨symbol, hsymbol⟩ := exists_symbol?_iff.mpr fun name hinput =>
        hsymbols line hline name (.inl hinput)
      obtain ⟨replacement, hreplacement⟩ := exists_symbol?_iff.mpr fun name houtput =>
        hsymbols line hline name (.inr houtput)
      exact ⟨_, case?_eq_some_iff.mpr ⟨symbol, replacement, hsymbol, hreplacement, rfl⟩⟩
    exact ⟨(owner, entries), by simp [state?, hentries]⟩
  exact ⟨{ initial := name, states }, by simp [automaton?, hname, hstates]⟩

theorem initial?_mem {name : String} (h : tree.initial? = some name) :
    ∃ lines, .state true name lines ∈ tree := by
  obtain ⟨item, hitem, hname⟩ := List.exists_of_findSome?_eq_some h
  cases item with
  | state marked key lines =>
    cases marked with
    | false => simp at hname
    | true =>
      obtain rfl : key = name := by simpa using hname
      exact ⟨lines, hitem⟩
  | character name symbol => simp at hname
  | string name text => simp at hname

/-- The definitions of a program can be entered, with an initial state, exactly if the program is
valid, and then they make the automaton it denotes. -/
theorem foldlM_enter?_iff (hnamed : ∀ item ∈ tree, item.name ≠ "")
    (hdistinct : (tree.map Item.name).Nodup) {automaton : Automaton} :
    tree.foldlM (Item.enter? tree.bindings) Automaton.empty = some automaton ∧
        automaton.initial ≠ "" ↔
      tree.Valid ∧ tree.automaton? = some automaton := by
  have hbound : ∀ marked name lines, .state marked name lines ∈ tree →
      tree.bindings.isState name = true :=
    fun marked _ lines h => (isState_bindings_iff hdistinct).mpr ⟨marked, lines, h⟩
  rw [foldlM_item_enter?_iff hnamed hbound hdistinct (by simp [Automaton.empty])]
  simp only [Automaton.empty, MarksFit, if_true, Nat.add_zero, List.nil_append, automaton?,
    Option.bind_eq_bind, Option.bind_eq_some_iff, Option.pure_def, Option.some.injEq]
  constructor
  · intro hgiven
    obtain ⟨⟨hmarks, states, hstates, hnodups, rfl⟩, hinitial⟩ := hgiven
    obtain ⟨name, hname⟩ : ∃ name, tree.initial? = some name := by
      cases hfind : tree.initial? with
      | none => simp [hfind] at hinitial
      | some name => exact ⟨name, rfl⟩
    have hone : tree.countP Item.isInitial ≠ 0 := by
      rw [Ne, ← initial?_eq_none_iff, hname]
      simp
    obtain ⟨hvalid, hdenotes⟩ := (resolveBlocks_iff hdistinct).mp ⟨hstates, hnodups⟩
    refine ⟨⟨hdistinct, by omega, ?_⟩, name, hname, states, hdenotes, by simp [hname]⟩
    intro marked owner lines hitem
    exact hvalid (owner, lines) (mem_blocks_iff.mpr ⟨marked, hitem⟩)
  · intro hgiven
    obtain ⟨hvalid, name, hname, states, hdenotes, rfl⟩ := hgiven
    have hlines : ∀ block ∈ tree.blocks, tree.ValidLines block.2 := by
      rintro ⟨owner, lines⟩ hblock
      obtain ⟨marked, hitem⟩ := mem_blocks_iff.mp hblock
      exact hvalid.lines marked owner lines hitem
    obtain ⟨hstates, hnodups⟩ := (resolveBlocks_iff hdistinct).mpr ⟨hlines, hdenotes⟩
    refine ⟨⟨Nat.le_of_eq hvalid.initial, states, hstates, hnodups, by simp [hname]⟩, ?_⟩
    obtain ⟨lines, hitem⟩ := initial?_mem hname
    exact hnamed _ hitem

end Tree

end Grammar

/-! ### Whole programs -/

/-- The names in the tokens of a program are those of identifiers. -/
theorem Grammar.Item.Derives.name_eq {item : Item} {tokens : List Token} (h : item.Derives tokens) :
    ∃ token ∈ tokens, token.kind = .identifier ∧ token.value = item.name := by
  induction h with
  | @character keyword name literal _ hname _ => exact ⟨name, by simp, hname, rfl⟩
  | @string keyword name literal _ hname _ => exact ⟨name, by simp, hname, rfl⟩
  | @state keyword name opening closing lines body _ hname _ _ _ =>
    exact ⟨name, by simp, hname, rfl⟩
  | initial _ _ ih =>
    obtain ⟨token, htoken, hname⟩ := ih
    exact ⟨token, .tail _ htoken, hname⟩

theorem Grammar.Tree.Derives.named {tree : Tree} {tokens : List Token} (h : tree.Derives tokens)
    (hnamed : ∀ token ∈ tokens, token.kind = .identifier → token.value ≠ "") :
    ∀ item ∈ tree, item.name ≠ "" := by
  rw [Tree.Derives] at h
  induction h with
  | nil => simp
  | cons hitem _ ih =>
    intro item hmem
    rcases hmem with _ | ⟨_, hmem⟩
    · obtain ⟨token, htoken, hkind, hvalue⟩ := hitem.name_eq
      rw [← hvalue]
      exact hnamed token (by simp [htoken]) hkind
    · exact ih (fun token htoken => hnamed token (by simp [htoken])) item hmem

namespace Program

/-- Nothing is wrong exactly if no name is repeated, the definitions are read without a diagnostic
and there is an initial state. -/
theorem ofTokens_diagnostics_iff {tokens : List Token} {automaton : Automaton} :
    (ofTokens tokens).diagnostics = [] ∧ (ofTokens tokens).automaton = automaton ↔
      Declaration.repeated (Declaration.ofTokens (Body.ofTokens tokens).tokens) = [] ∧
      Definition.readAll
          (Declaration.bindings (Declaration.ofTokens (Body.ofTokens tokens).tokens))
          (Body.ofTokens tokens).stop Automaton.empty (Body.ofTokens tokens).tokens =
        (automaton, []) ∧
      automaton.initial ≠ "" := by
  simp only [ofTokens, List.append_eq_nil_iff, initialProblems, beq_iff_eq, ite_eq_right_iff,
    List.cons_ne_nil, imp_false]
  constructor
  · intro h
    obtain ⟨⟨⟨hrepeated, hread⟩, hinitial⟩, rfl⟩ := h
    exact ⟨hrepeated, Prod.ext rfl hread, hinitial⟩
  · intro h
    obtain ⟨hrepeated, hread, hinitial⟩ := h
    rw [hread]
    exact ⟨⟨⟨hrepeated, rfl⟩, hinitial⟩, rfl⟩

/-- On the tokens of a program the declaration pass reports nothing exactly if no name is repeated,
and then its table is that of the program. -/
theorem declarations_of_derives {tree : Tree} {tokens : List Token} (h : tree.Derives tokens) :
    (Declaration.repeated (Declaration.ofTokens tokens) = [] ↔ (tree.map Item.name).Nodup) ∧
    (Declaration.repeated (Declaration.ofTokens tokens) = [] →
      Declaration.bindings (Declaration.ofTokens tokens) = tree.bindings) := by
  have hdeclared := Declaration.ofTokens_tree h
  have hnames : (Declaration.ofTokens tokens).map (fun declaration => declaration.name.value) =
      tree.map Item.name := by
    rw [← Tree.names_bindings, ← hdeclared, Table.names, List.map_map]
    rfl
  constructor
  · rw [Declaration.repeated, Declaration.repeatedFrom_eq_nil_iff, hnames]
    simp
  · intro hrepeated
    rw [Declaration.bindings, Declaration.foldl_enter_of_distinct hrepeated, hdeclared]
    rfl

/-- A token list is read without a diagnostic, into a given automaton, exactly if its body is that
of a valid program that denotes this automaton. -/
theorem ofTokens_accepts_iff {tokens : List Token} {automaton : Automaton}
    (hnamed : ∀ token ∈ (Body.ofTokens tokens).tokens, token.kind = .identifier →
      token.value ≠ "") :
    (ofTokens tokens).diagnostics = [] ∧ (ofTokens tokens).automaton = automaton ↔
      ∃ tree : Tree, tree.Derives (Body.ofTokens tokens).tokens ∧ tree.Valid ∧
        tree.automaton? = some automaton := by
  rw [ofTokens_diagnostics_iff]
  constructor
  · intro h
    obtain ⟨hrepeated, hread, hinitial⟩ := h
    obtain ⟨tree, htree, henter⟩ := Definition.readAll_eq_iff.mp hread
    obtain ⟨hdistinct, hbindings⟩ := declarations_of_derives htree
    rw [hbindings hrepeated] at henter
    have hvalid := (Tree.foldlM_enter?_iff (htree.named hnamed) (hdistinct.mp hrepeated)).mp
      ⟨henter, hinitial⟩
    exact ⟨tree, htree, hvalid⟩
  · intro h
    obtain ⟨tree, htree, hvalid, hdenotes⟩ := h
    obtain ⟨hdistinct, hbindings⟩ := declarations_of_derives htree
    have hrepeated := hdistinct.mpr hvalid.distinct
    obtain ⟨henter, hinitial⟩ := (Tree.foldlM_enter?_iff (htree.named hnamed)
      hvalid.distinct).mpr ⟨hvalid, hdenotes⟩
    refine ⟨hrepeated, Definition.readAll_eq_iff.mpr ⟨tree, htree, ?_⟩, hinitial⟩
    rw [hbindings hrepeated]
    exact henter

end Program

/-! ### Texts -/

/-- The tokens of a body are among the tokens it was made of. -/
theorem Body.mem_of_mem_tokens {tokens : List Token} {token : Token}
    (h : token ∈ (Body.ofTokens tokens).tokens) : token ∈ tokens :=
  List.mem_of_mem_filter ((List.takeWhile_sublist _).subset h)

namespace Compilation

/-- A text without lexical faults compiles to what is read of its tokens. -/
theorem ofText_of_no_error {source : Text}
    (h : ∀ token ∈ Token.ofText source, token.kind ≠ .error) :
    (ofText source).diagnostics = (Program.ofTokens (Token.ofText source)).diagnostics ∧
      (ofText source).automaton = some (Program.ofTokens (Token.ofText source)).automaton := by
  have hproblems : lexicalProblems (Token.ofText source) = [] := by
    have hfilter : (Token.ofText source).filter (·.kind == .error) = [] := by
      simpa [List.filter_eq_nil_iff] using h
    rw [lexicalProblems, hfilter]
    rfl
  simp only [ofText, hproblems, and_self]

/-- A text without lexical faults compiles to an automaton, with nothing wrong, exactly if its
tokens are those of a valid program that denotes the automaton. -/
theorem ofText_eq_iff {source : Text} (h : ∀ token ∈ Token.ofText source, token.kind ≠ .error)
    {automaton : Automaton} :
    (ofText source).diagnostics = [] ∧ (ofText source).automaton = some automaton ↔
      ∃ tree : Tree, tree.Derives (Body.ofTokens (Token.ofText source)).tokens ∧ tree.Valid ∧
        tree.automaton? = some automaton := by
  obtain ⟨hdiagnostics, hautomaton⟩ := ofText_of_no_error h
  rw [hdiagnostics, hautomaton, Option.some.injEq]
  apply Program.ofTokens_accepts_iff
  intro token htoken
  exact Token.ofTextAt_named 0 source token (Body.mem_of_mem_tokens htoken)

/-- Compiling accepts exactly the valid programs of the grammar, and gives what they denote: for a
text without lexical faults there are no diagnostics if and only if its tokens are derivable and the
derivation is valid, and the automaton is then the one that the derivation denotes. -/
theorem accepts_iff_derivable_and_valid (source : Text)
    (h : ∀ token ∈ Token.ofText source, token.kind ≠ .error) :
    ((ofText source).diagnostics = [] ↔
      ∃ tree : Tree, tree.Derives (Body.ofTokens (Token.ofText source)).tokens ∧ tree.Valid) ∧
    ∀ tree : Tree, tree.Derives (Body.ofTokens (Token.ofText source)).tokens → tree.Valid →
      ∃ automaton, tree.automaton? = some automaton ∧
        (ofText source).automaton = some automaton := by
  refine ⟨⟨fun hdiagnostics => ?_, fun ⟨tree, htree, hvalid⟩ => ?_⟩, fun tree htree hvalid => ?_⟩
  · obtain ⟨-, hautomaton⟩ := ofText_of_no_error h
    obtain ⟨tree, htree, hvalid, -⟩ := (ofText_eq_iff h).mp ⟨hdiagnostics, hautomaton⟩
    exact ⟨tree, htree, hvalid⟩
  · obtain ⟨automaton, hdenotes⟩ := hvalid.exists_automaton?
    exact ((ofText_eq_iff h).mpr ⟨tree, htree, hvalid, hdenotes⟩).1
  · obtain ⟨automaton, hdenotes⟩ := hvalid.exists_automaton?
    exact ⟨automaton, hdenotes, ((ofText_eq_iff h).mpr ⟨tree, htree, hvalid, hdenotes⟩).2⟩

/-- A program with a constant that is used before it is defined, and a comment. -/
def constantProgram : Text :=
  "initial state s \x7b x/'b',R->self #loop# \x7d define x 'a'".toList

/-- That program is accepted, so it has a valid derivation, and its constant is replaced. -/
theorem accepts_constantProgram :
    (∀ token ∈ Token.ofText constantProgram, token.kind ≠ .error) ∧
    (ofText constantProgram).diagnostics = [] ∧
    ∃ tree : Tree, tree.Derives (Body.ofTokens (Token.ofText constantProgram)).tokens ∧
      tree.Valid ∧
      tree.automaton? = some
        { initial := "s"
          states :=
            [("s", [("a", { replacement := "b", direction := .right, target := "s" })])] } := by
  have herror : ∀ token ∈ Token.ofText constantProgram, token.kind ≠ .error := by decide +kernel
  have hdiagnostics : (ofText constantProgram).diagnostics = [] := by decide +kernel
  have hautomaton : (ofText constantProgram).automaton = some
      { initial := "s"
        states :=
          [("s", [("a", { replacement := "b", direction := .right, target := "s" })])] } := by
    decide +kernel
  obtain ⟨haccepts, hdenotes⟩ := accepts_iff_derivable_and_valid constantProgram herror
  obtain ⟨tree, htree, hvalid⟩ := haccepts.mp hdiagnostics
  obtain ⟨automaton, hautomaton?, hsame⟩ := hdenotes tree htree hvalid
  refine ⟨herror, hdiagnostics, tree, htree, hvalid, ?_⟩
  rw [hautomaton?, ← hsame, hautomaton]

end Compilation

end TapeMachine
