import Mathlib.Data.List.Nodup
import Mathlib.Data.List.Perm.Basic
import TapeMachine.Automaton.Printer
import TapeMachine.Proofs.Program.Acceptance

/-!
# TapeMachine.Proofs.Automaton.RoundTrip

A printed automaton compiles back to itself.

* `Automaton.WellFormed` — the automata that can be written: their names are names of the
  language, their symbols single characters, and their targets states of their own.
* `Automaton.tree` — the derivation of the printed program.
* `Automaton.layout` — the printed program as a row of lexemes.

The text is the text of the layout, so its tokens are those of the layout; they are the tokens of
the derivation; and the derivation is valid and denotes the automaton, with the initial state
first. Symbols are written without escapes: an apostrophe between apostrophes is a character
literal like any other, which is why every character is allowed.
-/

namespace TapeMachine

namespace Automaton

open Grammar

/-- The automata that can be written as a program. -/
structure WellFormed (automaton : Automaton) : Prop where
  /-- No state is entered twice. -/
  distinct : automaton.states.names.Nodup
  /-- The initial state is one of the states. -/
  initial : automaton.initial ∈ automaton.states.names
  /-- The names of states are names. -/
  names : ∀ name ∈ automaton.states.names, IsName name
  /-- No state has two cases for one symbol. -/
  symbols : ∀ entry ∈ automaton.states, entry.2.names.Nodup
  /-- Symbols are single characters. -/
  single : ∀ entry ∈ automaton.states, ∀ case ∈ entry.2,
    case.1.length = 1 ∧ case.2.replacement.length = 1
  /-- Targets are states. -/
  targets : ∀ entry ∈ automaton.states, ∀ case ∈ entry.2,
    case.2.target ∈ automaton.states.names

/-! ### The derivation -/

/-- The line of a case of the state `owner`. -/
def line (owner : String) (case : String × Case) : Line :=
  { input := .literal case.1
    output := .literal case.2.replacement
    direction := case.2.direction
    target := if case.2.target = owner then .self else .state case.2.target }

/-- The definition of a state. -/
def item (initial : String) (entry : String × State) : Item :=
  .state (entry.1 == initial) entry.1 (entry.2.map (line entry.1))

/-- The derivation of the printed program. -/
def tree (automaton : Automaton) : Tree :=
  automaton.initialFirst.map (item automaton.initial)

/-- Putting the initial state first only changes the order. -/
theorem initialFirst_perm (automaton : Automaton) :
    automaton.initialFirst.Perm automaton.states :=
  List.filter_append_perm _ _

theorem mem_initialFirst {automaton : Automaton} {entry : String × State} :
    entry ∈ automaton.initialFirst ↔ entry ∈ automaton.states :=
  automaton.initialFirst_perm.mem_iff

theorem mem_names_initialFirst {automaton : Automaton} {name : String} :
    name ∈ automaton.initialFirst.names ↔ name ∈ automaton.states.names :=
  (automaton.initialFirst_perm.map Prod.fst).mem_iff

theorem tree_names (automaton : Automaton) :
    automaton.tree.map Item.name = automaton.initialFirst.names := by
  simp [tree, Table.names, item, Item.name, Function.comp_def]

namespace WellFormed

variable {automaton : Automaton}

theorem distinct_initialFirst (h : automaton.WellFormed) : automaton.initialFirst.names.Nodup :=
  (automaton.initialFirst_perm.map Prod.fst).nodup_iff.mpr h.distinct

/-- The initial state is the one marked state. -/
theorem countP_isInitial (h : automaton.WellFormed) :
    automaton.tree.countP Item.isInitial = 1 := by
  have hcount : automaton.tree.countP Item.isInitial =
      automaton.initialFirst.names.count automaton.initial := by
    rw [tree, List.countP_map, Table.names, List.count, List.countP_map]
    rfl
  rw [hcount]
  exact List.count_eq_one_of_mem h.distinct_initialFirst (mem_names_initialFirst.mpr h.initial)

theorem exists_state_of_mem {name : String} (h : name ∈ automaton.states.names) :
    ∃ marked lines, .state marked name lines ∈ automaton.tree := by
  obtain ⟨entry, hentry, rfl⟩ := List.mem_map.mp (mem_names_initialFirst.mpr h)
  exact ⟨_, _, List.mem_map_of_mem hentry⟩

/-- The printed program is valid. -/
theorem valid_tree (h : automaton.WellFormed) : automaton.tree.Valid := by
  refine ⟨?_, h.countP_isInitial, ?_⟩
  · rw [tree_names]
    exact h.distinct_initialFirst
  · intro marked owner lines hitem
    obtain ⟨entry, hentry, heq⟩ := List.mem_map.mp hitem
    simp only [item, Item.state.injEq] at heq
    obtain ⟨-, rfl, rfl⟩ := heq
    have hstate := mem_initialFirst.mp hentry
    refine ⟨?_, ?_, ?_⟩
    · rintro _ hline name hname
      obtain ⟨case, -, rfl⟩ := List.mem_map.mp hline
      simp [line] at hname
    · rintro _ hline name hname
      obtain ⟨case, hcase, rfl⟩ := List.mem_map.mp hline
      have htarget : case.2.target = name := by
        simp only [line] at hname
        split at hname
        · exact absurd hname (by simp)
        · simpa using hname
      rw [← htarget]
      exact exists_state_of_mem (h.targets entry hstate case hcase)
    · have hinputs : (entry.2.map (line entry.1)).map
          (fun line => automaton.tree.symbol? line.input) = entry.2.names.map some := by
        simp [Table.names, line, Tree.symbol?, Function.comp_def]
      rw [hinputs]
      exact (List.nodup_map_iff fun _ _ => Option.some.inj).mpr (h.symbols entry hstate)

end WellFormed

/-- A line denotes the case it was made from. -/
theorem case?_line (tree : Tree) (owner : String) (case : String × Case) :
    tree.case? owner (line owner case) = some case := by
  obtain ⟨symbol, replacement, direction, target⟩ := case
  by_cases htarget : target = owner <;> simp [Tree.case?, line, Tree.symbol?, htarget]

/-- A block denotes the state it was made from. -/
theorem state?_block (tree : Tree) (entry : String × State) :
    tree.state? (entry.1, entry.2.map (line entry.1)) = some entry := by
  have hcases : (entry.2.map (line entry.1)).mapM (tree.case? entry.1) = some entry.2 := by
    rw [mapM_eq_some_iff, List.map_map]
    exact List.map_congr_left fun case _ => case?_line tree entry.1 case
  simp [Tree.state?, hcases]

theorem initial?_tree {automaton : Automaton} (h : automaton.initial ∈ automaton.states.names) :
    automaton.tree.initial? = some automaton.initial := by
  obtain ⟨entry, hentry, hname⟩ := List.mem_map.mp (mem_names_initialFirst.mpr h)
  cases hfind : automaton.tree.initial? with
  | none =>
    rw [Tree.initial?, List.findSome?_eq_none_iff] at hfind
    simpa [item, hname] using hfind _ (List.mem_map_of_mem hentry)
  | some name =>
    -- only the definition of the initial state is marked
    obtain ⟨lines, hitem⟩ := Tree.initial?_mem hfind
    obtain ⟨other, -, heq⟩ := List.mem_map.mp hitem
    simp only [item, Item.state.injEq, beq_iff_eq] at heq
    rw [← heq.2.1, heq.1]

/-- The printed program denotes the automaton, with the initial state first. -/
theorem automaton?_tree {automaton : Automaton} (h : automaton.initial ∈ automaton.states.names) :
    automaton.tree.automaton? =
      some { initial := automaton.initial, states := automaton.initialFirst } := by
  have hblocks : automaton.tree.blocks =
      automaton.initialFirst.map fun entry => (entry.1, entry.2.map (line entry.1)) := by
    simp [Tree.blocks, tree, List.filterMap_map, item, Function.comp_def]
  have hstates : automaton.tree.blocks.mapM automaton.tree.state? =
      some automaton.initialFirst := by
    rw [hblocks, mapM_eq_some_iff, List.map_map]
    exact List.map_congr_left fun entry _ => state?_block automaton.tree entry
  simp [Tree.automaton?, hstates, initial?_tree h]

/-! ### The row of lexemes -/

/-- The character of a symbol that has one. -/
def symbolChar (symbol : String) : Char :=
  symbol.toList.headD ' '

/-- A case of the state `owner`, on a line of its own. -/
def caseLayout (indent : Text) (owner : String) (case : String × Case) : Layout :=
  [('\n' :: indent, .character (symbolChar case.1)), ([], .slash),
    ([], .character (symbolChar case.2.replacement)), ([], .comma),
    ([], .word case.2.direction.letter.toList), ([], .arrow),
    ([], .word (if case.2.target = owner then "self" else case.2.target).toList)]

/-- The head of a state, behind a gap. -/
def headerLayout (gap : Text) (initial : Bool) (name : String) : Layout :=
  (if initial then [(gap, .word "initial".toList), ([' '], .word "state".toList)]
    else [(gap, .word "state".toList)]) ++
  [([' '], .word name.toList), ([' '], .leftBrace)]

/-- The block of a state, behind a gap. -/
def stateLayout (gap indent : Text) (marked : Bool) (entry : String × State) : Layout :=
  headerLayout gap marked entry.1 ++
    entry.2.flatMap (caseLayout indent entry.1) ++
      [(if entry.2.isEmpty then [] else ['\n'], .rightBrace)]

/-- The printed program, up to the line feed at its end. -/
def layout (automaton : Automaton) (indent : Text) : Layout :=
  match automaton.initialFirst with
  | [] => []
  | first :: rest =>
    stateLayout [] indent (first.1 == automaton.initial) first ++
      rest.flatMap fun entry =>
        stateLayout ['\n', '\n'] indent (entry.1 == automaton.initial) entry

theorem toList_of_length_one {symbol : String} (h : symbol.length = 1) :
    symbol.toList = [symbolChar symbol] := by
  obtain ⟨c, hc⟩ := List.length_eq_one_iff.mp (String.length_toList.trans h)
  rw [symbolChar, hc]
  rfl

theorem text_caseLayout {indent : Text} {owner : String} {case : String × Case}
    (h : case.1.length = 1 ∧ case.2.replacement.length = 1) :
    (caseLayout indent owner case).text = '\n' :: (indent ++ caseText owner case.1 case.2) := by
  simp [caseLayout, caseText, Spelling.text, toList_of_length_one h.1, toList_of_length_one h.2]

theorem text_headerLayout (gap : Text) (initial : Bool) (name : String) :
    (headerLayout gap initial name).text = gap ++ headerText initial name := by
  cases initial <;> simp [headerLayout, headerText, Spelling.text]

/-- A line feed before each line and one at the end, or one after each line and one in front. -/
theorem newline_flatMap {α : Type} (xs : List α) (f : α → Text) :
    (xs.flatMap fun x => '\n' :: f x) ++ ['\n'] =
      '\n' :: xs.flatMap fun x => f x ++ ['\n'] := by
  induction xs with
  | nil => rfl
  | cons x xs ih => simp [List.append_assoc, ih]

theorem text_stateLayout {indent : Text} {entry : String × State}
    (h : ∀ case ∈ entry.2, case.1.length = 1 ∧ case.2.replacement.length = 1) (gap : Text)
    (marked : Bool) :
    (stateLayout gap indent marked entry).text =
      gap ++ stateText indent marked entry.1 entry.2 := by
  have hcases : (entry.2.flatMap fun case => (caseLayout indent entry.1 case).text) =
      entry.2.flatMap fun case => '\n' :: (indent ++ caseText entry.1 case.1 case.2) :=
    List.flatMap_congr fun case hcase => text_caseLayout (h case hcase)
  rw [stateLayout, Layout.text_append, Layout.text_append, text_headerLayout, Layout.text_flatMap,
    hcases, stateText]
  cases hstate : entry.2 with
  | nil => simp [Spelling.text]
  | cons case cases =>
    have hlines := newline_flatMap (case :: cases) fun case =>
      indent ++ caseText entry.1 case.1 case.2
    simp only [List.isEmpty_cons, Bool.false_eq_true, if_false, Layout.text_cons, Layout.text_nil,
      Spelling.text, List.append_nil, List.append_assoc]
    rw [← List.append_assoc _ ['\n'], hlines]
    simp

theorem intercalate_cons (sep first : Text) (rest : List Text) :
    List.intercalate sep (first :: rest) = first ++ rest.flatMap (sep ++ ·) := by
  induction rest generalizing first with
  | nil => simp [List.intercalate]
  | cons second rest ih =>
    have hsecond := ih second
    simp only [List.intercalate, List.intersperse_cons_cons, List.flatten_cons] at hsecond ⊢
    rw [hsecond]
    simp

/-- The printed program is the text of its layout. -/
theorem text_layout {automaton : Automaton} (h : automaton.WellFormed) (indent : Text) :
    automaton.toText indent = (automaton.layout indent).text ++ ['\n'] := by
  have hblocks : ∀ gap, ∀ entry ∈ automaton.initialFirst,
      (stateLayout gap indent (entry.1 == automaton.initial) entry).text =
        gap ++ stateText indent (entry.1 == automaton.initial) entry.1 entry.2 :=
    fun gap entry hentry => text_stateLayout (h.single entry (mem_initialFirst.mp hentry)) gap _
  have hinitial := mem_names_initialFirst.mpr h.initial
  rw [toText, layout]
  cases hstates : automaton.initialFirst with
  | nil => simp [hstates] at hinitial
  | cons first rest =>
    rw [hstates] at hblocks
    simp only [List.map_cons, List.isEmpty_cons, Bool.false_eq_true, if_false]
    rw [intercalate_cons, List.flatMap_map, Layout.text_append, Layout.text_flatMap,
      hblocks [] first (by simp)]
    congr 2
    exact List.flatMap_congr fun entry hentry => (hblocks _ entry (by simp [hentry])).symm

/-! ### The tokens of the row -/

theorem isWord_letter (direction : Direction) : Text.isWord direction.letter.toList = true := by
  cases direction <;> decide

theorem readable_caseLayout {indent : Text} (hindent : indent.all Text.isSpace = true)
    {owner : String} {case : String × Case} (htarget : IsName case.2.target) :
    (caseLayout indent owner case).Readable true := by
  have hgap : List.all ('\n' :: indent) Text.isSpace = true := by
    rw [List.all_cons, hindent]
    decide
  have hword : Text.isWord (if case.2.target = owner then "self" else case.2.target).toList =
      true := by
    split
    · decide
    · exact htarget.1
  simp [caseLayout, Layout.Readable, Spelling.isLexeme, Spelling.isWord, hgap, hword,
    isWord_letter]

theorem readable_headerLayout {gap : Text} (hgap : gap.all Text.isSpace = true) {behind : Bool}
    (hbehind : behind = true → gap ≠ []) (initial : Bool) {name : String} (hname : IsName name) :
    (headerLayout gap initial name).Readable behind := by
  have hname : Layout.Readable true [([' '], .word name.toList), ([' '], .leftBrace)] :=
    ⟨rfl, by simp, hname.1, rfl, by simp, rfl, trivial⟩
  refine Layout.Readable.append ?_ hname
  cases initial with
  | false => exact ⟨hgap, fun h _ => hbehind h, by decide, trivial⟩
  | true => exact ⟨hgap, fun h _ => hbehind h, by decide, rfl, by simp, by decide, trivial⟩

theorem readable_stateLayout {automaton : Automaton} (h : automaton.WellFormed) {indent : Text}
    (hindent : indent.all Text.isSpace = true) {gap : Text} (hgap : gap.all Text.isSpace = true)
    {behind : Bool} (hbehind : behind = true → gap ≠ []) (marked : Bool)
    {entry : String × State} (hentry : entry ∈ automaton.states) :
    (stateLayout gap indent marked entry).Readable behind := by
  have hname : IsName entry.1 := h.names _ (List.mem_map_of_mem hentry)
  have hcases : Layout.Readable true (entry.2.flatMap (caseLayout indent entry.1)) :=
    Layout.Readable.flatMap fun case hcase =>
      readable_caseLayout hindent (h.names _ (h.targets entry hentry case hcase))
  have hclosing : Layout.Readable true
      [(if entry.2.isEmpty then [] else ['\n'], Spelling.rightBrace)] :=
    ⟨by split <;> rfl, by simp [Spelling.isWord], rfl, trivial⟩
  exact ((readable_headerLayout hgap hbehind _ hname).append hcases).append hclosing

/-- The printed program can be read back lexeme by lexeme. -/
theorem readable_layout {automaton : Automaton} (h : automaton.WellFormed) {indent : Text}
    (hindent : indent.all Text.isSpace = true) : (automaton.layout indent).Readable false := by
  have hmem : ∀ entry ∈ automaton.initialFirst, entry ∈ automaton.states :=
    fun entry hentry => mem_initialFirst.mp hentry
  rw [layout]
  cases hstates : automaton.initialFirst with
  | nil => trivial
  | cons first rest =>
    rw [hstates] at hmem
    refine Layout.Readable.append
      (readable_stateLayout h hindent rfl (by simp) _ (hmem first (by simp))) ?_
    exact Layout.Readable.flatMap fun entry hentry =>
      readable_stateLayout h hindent (by decide) (by simp) _ (hmem entry (by simp [hentry]))

/-- A word that is a name gives an identifier. -/
theorem token_of_isName {name : String} (h : IsName name) (start : Nat) :
    ((Spelling.word name.toList).token start).kind = .identifier ∧
      ((Spelling.word name.toList).token start).value = name := by
  simp [Spelling.token, Spelling.kind, Spelling.value, h.2]

theorem derives_caseLayout {indent : Text} {owner : String} {case : String × Case}
    (hsingle : case.1.length = 1 ∧ case.2.replacement.length = 1) (htarget : IsName case.2.target)
    (start : Nat) :
    (line owner case).Derives ((caseLayout indent owner case).tokens start) := by
  have hsymbol : ∀ {symbol : String}, symbol.length = 1 → ∀ start,
      (Symbol.literal symbol).Derives ((Spelling.character (symbolChar symbol)).token start) := by
    intro symbol hlength start
    have hvalue : ((Spelling.character (symbolChar symbol)).token start).value = symbol := by
      rw [Spelling.token, Spelling.value, ← toList_of_length_one hlength, String.ofList_toList]
    have hderives := Symbol.Derives.literal
      (show ((Spelling.character (symbolChar symbol)).token start).kind = .character from rfl)
    rwa [hvalue] at hderives
  have hway : ∀ start, DerivesDirection case.2.direction
      ((Spelling.word case.2.direction.letter.toList).token start) := by
    intro start
    cases case.2.direction with
    | left => exact .left rfl
    | right => exact .right rfl
  have hgoal : ∀ start, (line owner case).target.Derives ((Spelling.word
      (if case.2.target = owner then "self" else case.2.target).toList).token start) := by
    intro start
    by_cases hself : case.2.target = owner
    · simp only [line, hself, if_true]
      exact .self rfl
    · obtain ⟨hkind, hvalue⟩ := token_of_isName htarget start
      simp only [line, hself, if_false]
      have hderives := Target.Derives.state hkind
      rwa [hvalue] at hderives
  exact .mk (hsymbol hsingle.1 _) rfl (hsymbol hsingle.2 _) rfl (hway _) rfl (hgoal _)

/-- The tokens of a row of phrases, each with a layout of its own. -/
theorem many_tokens_flatMap {α β : Type} {Derives : β → List Token → Prop} {phrase : α → β}
    {f : α → Layout} {xs : List α}
    (h : ∀ x ∈ xs, ∀ start, Derives (phrase x) ((f x).tokens start)) (start : Nat) :
    Many Derives (xs.map phrase) (Layout.tokens start (xs.flatMap f)) := by
  induction xs generalizing start with
  | nil => exact .nil
  | cons x xs ih =>
    rw [List.map_cons, List.flatMap_cons, Layout.tokens_append]
    exact .cons (h x (by simp) start) (ih (fun y hy => h y (by simp [hy])) _)

/-- A state whose name is known. -/
theorem derives_state {keyword name opening closing : Token} {lines : List Line}
    {body : List Token} {label : String} (hname : name.kind = .identifier ∧ name.value = label)
    (hkeyword : keyword.kind = .state) (hopening : opening.kind = .leftBrace)
    (hbody : Many Line.Derives lines body) (hclosing : closing.kind = .rightBrace) :
    (Item.state false label lines).Derives
      (keyword :: name :: opening :: (body ++ [closing])) := by
  rw [← hname.2]
  exact .state hkeyword hname.1 hopening hbody hclosing

theorem derives_stateLayout {automaton : Automaton} (h : automaton.WellFormed) {indent : Text}
    {entry : String × State} (hentry : entry ∈ automaton.states) (marked : Bool) (gap : Text)
    (start : Nat) :
    (Item.state marked entry.1 (entry.2.map (line entry.1))).Derives
      ((stateLayout gap indent marked entry).tokens start) := by
  have hname : IsName entry.1 := h.names _ (List.mem_map_of_mem hentry)
  have hlines : ∀ start, Many Line.Derives (entry.2.map (line entry.1))
      (Layout.tokens start (entry.2.flatMap (caseLayout indent entry.1))) :=
    many_tokens_flatMap fun case hcase => derives_caseLayout (h.single entry hentry case hcase)
      (h.names _ (h.targets entry hentry case hcase))
  have hplain : ∀ gap start, (Item.state false entry.1 (entry.2.map (line entry.1))).Derives
      ((stateLayout gap indent false entry).tokens start) := by
    intro gap start
    rw [stateLayout, Layout.tokens_append, Layout.tokens_append]
    exact derives_state (token_of_isName hname _) rfl rfl (hlines _) rfl
  cases marked with
  | false => exact hplain gap start
  | true => exact .initial rfl (hplain [' '] _)

/-- The tokens of the printed program are those of its derivation. -/
theorem derives_layout {automaton : Automaton} (h : automaton.WellFormed) (indent : Text) :
    automaton.tree.Derives ((automaton.layout indent).tokens 0) := by
  have hmem : ∀ entry ∈ automaton.initialFirst, entry ∈ automaton.states :=
    fun entry hentry => mem_initialFirst.mp hentry
  rw [tree, layout]
  cases hstates : automaton.initialFirst with
  | nil => exact .nil
  | cons first rest =>
    rw [hstates] at hmem
    rw [Layout.tokens_append, List.map_cons]
    refine .cons (derives_stateLayout h (hmem first (by simp)) _ _ _) ?_
    exact many_tokens_flatMap (fun entry hentry start =>
      derives_stateLayout h (hmem entry (by simp [hentry])) _ _ start) _

end Automaton

/-! ### The round trip -/

/-- The body of the tokens of a derivation, with nothing or an end behind them, is these tokens. -/
theorem Body.tokens_of_derives {tree : Grammar.Tree} {tokens : List Token}
    (h : tree.Derives tokens) {tail : List Token}
    (htail : ∀ token ∈ tail.head?, token.kind = .endOfText) :
    (Body.ofTokens (tokens ++ tail)).tokens = tokens := by
  have hkinds : ∀ kind ∈ Grammar.programKinds, kind ≠ .comment ∧ kind ≠ .endOfText := by decide
  have hvisible : tokens.filter (·.kind != .comment) = tokens := by
    rw [List.filter_eq_self]
    intro token htoken
    simpa using (hkinds _ (h.kind_mem token htoken)).1
  have hbefore : ∀ token ∈ tokens, (token.kind != .endOfText) = true := by
    intro token htoken
    simpa using (hkinds _ (h.kind_mem token htoken)).2
  have hbehind : (tail.filter (·.kind != .comment)).takeWhile (·.kind != .endOfText) = [] := by
    cases tail with
    | nil => rfl
    | cons token tail => simp [htail token rfl]
  simp only [Body.ofTokens, List.filter_append, hvisible]
  rw [List.takeWhile_append_of_pos hbefore, hbehind, List.append_nil]

/-- The body of the tokens of a derivation is all of them but the last. -/
theorem Body.ofTokens_of_derives {tree : Grammar.Tree} {tokens : List Token}
    (h : tree.Derives tokens) (offset : Nat) :
    (Body.ofTokens (tokens ++ [Token.ending offset])).tokens = tokens := by
  apply Body.tokens_of_derives h
  simp [Token.ending]

namespace Automaton

/-- The automaton with its initial state first has the same states. -/
theorem state?_initialFirst {automaton : Automaton} (h : automaton.WellFormed) (name : String) :
    state? { initial := automaton.initial, states := automaton.initialFirst } name =
      automaton.state? name := by
  apply Option.ext
  intro state
  rw [state?, state?, Table.lookup_eq_some_iff_mem h.distinct_initialFirst,
    Table.lookup_eq_some_iff_mem h.distinct, mem_initialFirst]

theorem same_initialFirst {automaton : Automaton} (h : automaton.WellFormed) :
    same { initial := automaton.initial, states := automaton.initialFirst } automaton = true := by
  simp only [same, beq_self_eq_true, Bool.true_and]
  apply Table.sameBy_of_mem h.distinct automaton.initialFirst_perm.length_eq
  · exact fun entry hentry => mem_initialFirst.mp hentry
  · intro entry hentry
    apply Table.sameBy_of_mem (h.symbols entry (mem_initialFirst.mp hentry)) rfl
    · exact fun _ hcase => hcase
    · simp

/-- Putting the initial state first twice is putting it first once, so the text is the same. -/
theorem toText_initialFirst (automaton : Automaton) (indent : Text) :
    toText { initial := automaton.initial, states := automaton.initialFirst } indent =
      automaton.toText indent := by
  have hfirst : initialFirst { initial := automaton.initial, states := automaton.initialFirst } =
      automaton.initialFirst := by
    simp [initialFirst, List.filter_append, List.filter_filter, bne]
  rw [toText, toText, hfirst]

/-- A printed automaton compiles back to itself: for every automaton that can be written and every
indentation made of spaces, the text has no faults, its automaton has the same initial state and
the same states, and printing that gives the same text again. -/
theorem compile_toText (automaton : Automaton) (indent : Text) (h : automaton.WellFormed)
    (hindent : indent.all Text.isSpace = true) :
    (Compilation.ofText (automaton.toText indent)).diagnostics = [] ∧
    ∃ again, (Compilation.ofText (automaton.toText indent)).automaton = some again ∧
      again.initial = automaton.initial ∧
      (∀ name, again.state? name = automaton.state? name) ∧
      again.same automaton = true ∧
      again.toText indent = automaton.toText indent := by
  have htokens : Token.ofText (automaton.toText indent) =
      (automaton.layout indent).tokens 0 ++ [Token.ending (automaton.toText indent).length] := by
    rw [Token.ofText, text_layout h,
      Token.ofTextAt_layout (readable_layout h hindent) (by decide), Nat.zero_add]
  have hderives := derives_layout h indent
  have herror : ∀ token ∈ Token.ofText (automaton.toText indent), token.kind ≠ .error := by
    have hkinds : ∀ kind ∈ Grammar.programKinds, kind ≠ .error := by decide
    rw [htokens]
    simp only [List.mem_append, List.mem_singleton]
    intro token hmem
    rcases hmem with htoken | rfl
    · exact hkinds _ (hderives.kind_mem token htoken)
    · simp [Token.ending]
  obtain ⟨hdiagnostics, hautomaton⟩ := (Compilation.ofText_eq_iff herror).mpr
    ⟨automaton.tree, by rw [htokens, Body.ofTokens_of_derives hderives]; exact hderives,
      h.valid_tree, automaton?_tree h.initial⟩
  exact ⟨hdiagnostics, _, hautomaton, rfl, state?_initialFirst h, same_initialFirst h,
    toText_initialFirst automaton indent⟩

/-- Two states whose symbols are delimiters of the language; the initial one comes second. -/
def delimiters : Automaton :=
  { initial := "b"
    states :=
      [("a", [("'", { replacement := "#", direction := .left, target := "b" }),
        ("\n", { replacement := "\x7d", direction := .right, target := "a" })]),
        ("b", [("\"", { replacement := "'", direction := .right, target := "a" })])] }

theorem wellFormed_delimiters : delimiters.WellFormed := by
  refine ⟨by decide, by decide, ?_, by decide, by decide, by decide⟩
  simp only [delimiters, Table.names, List.map_cons, List.map_nil, List.forall_mem_cons]
  exact ⟨⟨by decide, by decide⟩, ⟨by decide, by decide⟩, by simp⟩

/-- Delimiters as symbols do not disturb the round trip, nor does an indentation by a line feed. -/
theorem compile_toText_delimiters :
    delimiters.WellFormed ∧ List.all ['\n', '\t'] Text.isSpace = true ∧
    (Compilation.ofText (delimiters.toText ['\n', '\t'])).diagnostics = [] ∧
    ∃ again, (Compilation.ofText (delimiters.toText ['\n', '\t'])).automaton = some again ∧
      again.initial = "b" ∧
      (∀ name, again.state? name = delimiters.state? name) ∧
      again.same delimiters = true ∧
      again.toText ['\n', '\t'] = delimiters.toText ['\n', '\t'] :=
  ⟨wellFormed_delimiters, by decide,
    compile_toText delimiters ['\n', '\t'] wellFormed_delimiters (by decide)⟩

end Automaton

end TapeMachine
