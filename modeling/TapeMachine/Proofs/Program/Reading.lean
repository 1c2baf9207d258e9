import TapeMachine.Program.Definitions
import TapeMachine.Proofs.Program.Grammar

/-!
# TapeMachine.Proofs.Program.Reading

The definition pass reads derivations, and nothing else without a diagnostic.

A derivation says what stands where; `enter?` says what the pass makes of it, given the table of
names and the automaton so far, and fails where the pass would report something about the names.
For each level of the grammar there are two facts:

* reading a phrase that can be entered gives just that entry, no diagnostic, and the tokens behind
  the phrase (`read_of_enter?`, `readAt_of_enter?`);
* what was read without a diagnostic is a phrase that can be entered (`exists_line_of_read`,
  `exists_item_of_readAt`).

`Definition.readAll_eq_iff` puts them together for whole programs.
-/

namespace TapeMachine

/-! ### Shapes -/

namespace Shape

/-- The tokens fill the places of a shape, one each. -/
def Fits : Shape → List Token → Prop
  | [], [] => True
  | slot :: slots, token :: tokens => slot.accepts token.kind = true ∧ Fits slots tokens
  | _, _ => False

theorem fits_nil_iff {tokens : List Token} : Fits [] tokens ↔ tokens = [] := by
  cases tokens with
  | nil => exact ⟨fun _ => rfl, fun _ => trivial⟩
  | cons token tokens => exact ⟨False.elim, fun h => nomatch h⟩

theorem fits_cons_iff {slot : Slot} {slots : Shape} {tokens : List Token} :
    Fits (slot :: slots) tokens ↔
      ∃ token rest, tokens = token :: rest ∧ slot.accepts token.kind = true ∧ Fits slots rest := by
  cases tokens with
  | nil =>
    refine ⟨False.elim, fun h => ?_⟩
    obtain ⟨_, _, htokens, -⟩ := h
    cases htokens
  | cons token tokens =>
    refine ⟨fun h => ⟨token, tokens, rfl, h⟩, fun h => ?_⟩
    obtain ⟨_, _, htokens, h⟩ := h
    cases htokens
    exact h

theorem read_of_fits {shape : Shape} {tokens : List Token} (h : Fits shape tokens)
    (rest : List Token) :
    read shape (tokens ++ rest) = { matched := tokens, missing := none, rest } := by
  induction shape generalizing tokens with
  | nil =>
    cases tokens with
    | nil => rfl
    | cons token tokens => exact absurd h (by simp [Fits])
  | cons slot slots ih =>
    cases tokens with
    | nil => exact absurd h (by simp [Fits])
    | cons token tokens =>
      obtain ⟨haccepts, hfits⟩ := h
      rw [List.cons_append, read, if_pos haccepts, ih hfits]

theorem fits_of_read {shape : Shape} {tokens : List Token}
    (h : (read shape tokens).missing = none) : Fits shape (read shape tokens).matched := by
  induction shape generalizing tokens with
  | nil => simp [Fits]
  | cons slot slots ih =>
    cases tokens with
    | nil => simp at h
    | cons token tokens =>
      rw [read] at h ⊢
      split at h
      · next haccepts =>
        rw [if_pos haccepts]
        exact ⟨haccepts, ih h⟩
      · simp at h

end Shape

/-! ### What the pass makes of a derivation -/

namespace Grammar

/-- The symbol that the table of names gives a symbol. -/
def Symbol.resolve? (bindings : Bindings) : Symbol → Option String
  | .literal symbol => some symbol
  | .constant name => (bindings.lookup name).bind Binding.symbol?

/-- The name of a target of the state `owner`, if the table has a state of that name. -/
def Target.resolve? (bindings : Bindings) (owner : String) : Target → Option String
  | .self => some owner
  | .state name => if bindings.isState name then some name else none

/-- The case of a line of the state `owner`, with its symbol. -/
def Line.resolve? (bindings : Bindings) (owner : String) (line : Line) :
    Option (String × Case) := do
  let symbol ← line.input.resolve? bindings
  let replacement ← line.output.resolve? bindings
  let target ← line.target.resolve? bindings owner
  return (symbol, { replacement, direction := line.direction, target })

/-- Enters a line of the state `owner`, unless the state has a case for its symbol. -/
def Line.enter? (bindings : Bindings) (owner : String) (state : State) (line : Line) :
    Option State := do
  let entry ← line.resolve? bindings owner
  if state.has entry.1 then none else some (state.add entry.1 entry.2)

/-- Enters a definition, unless it marks a second initial state. -/
def Item.enter? (bindings : Bindings) (automaton : Automaton) : Item → Option Automaton
  | .state marked name lines =>
    if marked && automaton.initial != "" then none
    else
      (lines.foldlM (Line.enter? bindings name) []).map
        (Definition.register bindings automaton marked name)
  | _ => some automaton

theorem Line.resolve?_eq_some_iff {bindings : Bindings} {owner : String} {line : Line}
    {entry : String × Case} :
    line.resolve? bindings owner = some entry ↔
      ∃ symbol replacement target,
        line.input.resolve? bindings = some symbol ∧
        line.output.resolve? bindings = some replacement ∧
        line.target.resolve? bindings owner = some target ∧
        entry = (symbol, { replacement, direction := line.direction, target }) := by
  simp only [resolve?, Option.bind_eq_bind, Option.bind_eq_some_iff, Option.pure_def,
    Option.some.injEq]
  constructor
  · intro h
    obtain ⟨symbol, hsymbol, replacement, hreplacement, target, htarget, rfl⟩ := h
    exact ⟨symbol, replacement, target, hsymbol, hreplacement, htarget, rfl⟩
  · intro h
    obtain ⟨symbol, replacement, target, hsymbol, hreplacement, htarget, rfl⟩ := h
    exact ⟨symbol, hsymbol, replacement, hreplacement, target, htarget, rfl⟩

theorem Line.enter?_eq_some_iff {bindings : Bindings} {owner : String} {state result : State}
    {line : Line} :
    line.enter? bindings owner state = some result ↔
      ∃ entry, line.resolve? bindings owner = some entry ∧ state.has entry.1 = false ∧
        result = state.add entry.1 entry.2 := by
  simp only [enter?, Option.bind_eq_bind, Option.bind_eq_some_iff]
  constructor
  · intro h
    obtain ⟨entry, hentry, hadd⟩ := h
    simp only [Option.ite_none_left_eq_some, Bool.not_eq_true, Option.some.injEq] at hadd
    exact ⟨entry, hentry, hadd.1, hadd.2.symm⟩
  · intro h
    obtain ⟨entry, hentry, hhas, rfl⟩ := h
    exact ⟨entry, hentry, by simp [hhas]⟩

/-! ### Single tokens -/

theorem Symbol.exists_derives {token : Token} (h : isSymbol token.kind = true) :
    ∃ symbol : Symbol, symbol.Derives token := by
  simp only [isSymbol, Bool.or_eq_true, beq_iff_eq] at h
  rcases h with h | h
  · exact ⟨_, .literal h⟩
  · exact ⟨_, .constant h⟩

theorem Symbol.Derives.isSymbol {symbol : Symbol} {token : Token} (h : symbol.Derives token) :
    TapeMachine.isSymbol token.kind = true := by
  cases h with
  | literal hkind => simp [TapeMachine.isSymbol, hkind]
  | constant hkind => simp [TapeMachine.isSymbol, hkind]

theorem Symbol.Derives.symbol?_eq {symbol : Symbol} {token : Token} (h : symbol.Derives token)
    (bindings : Bindings) : Case.symbol? bindings token = symbol.resolve? bindings := by
  cases h with
  | literal hkind => simp [Case.symbol?, Symbol.resolve?, hkind]
  | constant hkind => simp [Case.symbol?, Symbol.resolve?, hkind]

theorem Symbol.Derives.inputProblems_eq_nil_iff {symbol : Symbol} {token : Token}
    (h : symbol.Derives token) (bindings : Bindings) (state : State) :
    Case.inputProblems bindings state token = [] ↔
      ∃ value, symbol.resolve? bindings = some value ∧ state.has value = false := by
  simp only [Case.inputProblems, h.symbol?_eq]
  cases hresolve : symbol.resolve? bindings with
  | none => simp
  | some value => cases hhas : state.has value <;> simp

theorem Symbol.Derives.symbolProblems_eq_nil_iff {symbol : Symbol} {token : Token}
    (h : symbol.Derives token) (bindings : Bindings) :
    Case.symbolProblems bindings token = [] ↔
      ∃ value, symbol.resolve? bindings = some value := by
  simp only [Case.symbolProblems, h.symbol?_eq]
  cases symbol.resolve? bindings <;> simp

theorem Target.Derives.targetProblems_eq_nil_iff {target : Target} {token : Token}
    (h : target.Derives token) (bindings : Bindings) (owner : String) :
    Case.targetProblems bindings token = [] ↔
      ∃ value, target.resolve? bindings owner = some value := by
  cases h with
  | self hkind => simp [Case.targetProblems, Target.resolve?, hkind]
  | state hkind => cases hstate : bindings.isState token.value <;>
      simp [Case.targetProblems, Target.resolve?, hkind, hstate]

/-! ### Lines -/

/-- The tokens of a line fill the shape of a case. -/
theorem Line.Derives.fits {line : Line} {tokens : List Token} (h : line.Derives tokens) :
    caseShape.Fits tokens := by
  obtain ⟨hinput, hslash, houtput, hcomma, hdirection, harrow, htarget⟩ := h
  have hdir : ∀ {direction token}, DerivesDirection direction token →
      (token.kind == .left || token.kind == .right) = true := by
    rintro _ _ (h | h) <;> simp [h]
  have htgt : ∀ {target : Target} {token}, target.Derives token →
      (token.kind == .self || token.kind == .identifier) = true := by
    rintro _ _ (h | h) <;> simp [h]
  simp [caseShape, Shape.Fits, hinput.isSymbol, hslash, houtput.isSymbol, hcomma,
    hdir hdirection, harrow, htgt htarget]

/-- Tokens that fill the shape of a case are a line. -/
theorem Line.exists_derives {tokens : List Token} (h : caseShape.Fits tokens) :
    ∃ line : Line, line.Derives tokens := by
  simp only [caseShape, Shape.fits_cons_iff, Shape.fits_nil_iff, beq_iff_eq,
    Bool.or_eq_true] at h
  obtain ⟨input, _, rfl, hinput, slash, _, rfl, hslash, output, _, rfl, houtput, comma, _, rfl,
    hcomma, direction, _, rfl, hdirection, arrow, _, rfl, harrow, target, _, rfl, htarget, rfl⟩ := h
  obtain ⟨inputSymbol, hinput⟩ := Symbol.exists_derives hinput
  obtain ⟨outputSymbol, houtput⟩ := Symbol.exists_derives houtput
  obtain ⟨way, hway⟩ : ∃ way, DerivesDirection way direction := by
    rcases hdirection with h | h
    · exact ⟨_, .left h⟩
    · exact ⟨_, .right h⟩
  obtain ⟨goal, hgoal⟩ : ∃ goal : Target, goal.Derives target := by
    rcases htarget with h | h
    · exact ⟨_, .self h⟩
    · exact ⟨_, .state h⟩
  exact ⟨⟨inputSymbol, outputSymbol, way, goal⟩,
    .mk hinput hslash houtput hcomma hway harrow hgoal⟩

theorem DerivesDirection.eq {direction : Direction} {token : Token}
    (h : DerivesDirection direction token) :
    (if token.kind = .left then Direction.left else .right) = direction := by
  cases h with
  | left hkind => simp [hkind]
  | right hkind => simp [hkind]

/-- The name of a resolved target is what the reader takes for it. -/
theorem Target.Derives.name_eq {target : Target} {token : Token} (h : target.Derives token)
    {bindings : Bindings} {owner name : String}
    (hname : target.resolve? bindings owner = some name) :
    (if token.kind = .self then owner else token.value) = name := by
  cases h with
  | self hkind => simpa [hkind, Target.resolve?] using hname
  | state hkind =>
    simp only [Target.resolve?, Option.ite_none_right_eq_some, Option.some.injEq] at hname
    simpa [hkind] using hname.2

/-- Nothing is wrong with the names of a line exactly if it can be entered. -/
theorem Line.Derives.problems_eq_nil_iff {line : Line} {tokens : List Token}
    (h : line.Derives tokens) (bindings : Bindings) (owner : String) (state : State) :
    Case.problems bindings state tokens = [] ↔
      ∃ result, line.enter? bindings owner state = some result := by
  obtain ⟨hinput, -, houtput, -, -, -, htarget⟩ := h
  simp only [Case.problems, List.append_eq_nil_iff, Line.enter?_eq_some_iff,
    Line.resolve?_eq_some_iff]
  simp only [List.getElem?_cons_zero, List.getElem?_cons_succ, Option.toList_some,
    List.flatMap_cons, List.flatMap_nil, List.append_nil, hinput.inputProblems_eq_nil_iff,
    houtput.symbolProblems_eq_nil_iff, htarget.targetProblems_eq_nil_iff bindings owner]
  constructor
  · intro hgiven
    obtain ⟨⟨⟨symbol, hsymbol, hhas⟩, replacement, hreplacement⟩, target, htarget⟩ := hgiven
    exact ⟨_, _, ⟨symbol, replacement, target, hsymbol, hreplacement, htarget, rfl⟩, hhas, rfl⟩
  · intro hgiven
    obtain ⟨_, _, ⟨symbol, replacement, target, hsymbol, hreplacement, htarget, rfl⟩, hhas, -⟩ :=
      hgiven
    exact ⟨⟨⟨symbol, hsymbol, hhas⟩, replacement, hreplacement⟩, target, htarget⟩

/-- A line that resolves is read as its case. -/
theorem Line.Derives.ofTokens?_eq {line : Line} {tokens : List Token} (h : line.Derives tokens)
    {bindings : Bindings} {owner : String} {entry : String × Case}
    (hentry : line.resolve? bindings owner = some entry) :
    Case.ofTokens? bindings owner tokens = some entry := by
  obtain ⟨symbol, replacement, target, hsymbol, hreplacement, htarget, rfl⟩ :=
    Line.resolve?_eq_some_iff.mp hentry
  obtain ⟨hinput, -, houtput, -, hdirection, -, hgoal⟩ := h
  simp only [Case.ofTokens?, hinput.symbol?_eq, houtput.symbol?_eq, hsymbol, hreplacement,
    hdirection.eq, hgoal.name_eq htarget]
  rfl

end Grammar

namespace Case

variable {bindings : Bindings} {stop : Span} {owner : String} {state : State}

open Grammar

/-- Reading a line that can be entered enters it, and leaves what stands behind it. -/
theorem read_of_enter? {line : Line} {tokens : List Token} {result : State}
    (h : line.Derives tokens) (henter : line.enter? bindings owner state = some result)
    (stop : Span) (rest : List Token) :
    read bindings stop owner state (tokens ++ rest) =
      { state := result, diagnostics := [], rest } := by
  have hproblems := (h.problems_eq_nil_iff bindings owner state).mpr ⟨result, henter⟩
  obtain ⟨entry, hentry, -, rfl⟩ := Line.enter?_eq_some_iff.mp henter
  simp only [read, Shape.read_of_fits h.fits, hproblems, h.ofTokens?_eq hentry]

/-- What is read without a diagnostic is a line that can be entered. -/
theorem exists_line_of_read {tokens : List Token}
    (h : (read bindings stop owner state tokens).diagnostics = []) :
    ∃ (line : Line) (taken : List Token),
      tokens = taken ++ (read bindings stop owner state tokens).rest ∧ line.Derives taken ∧
      line.enter? bindings owner state = some (read bindings stop owner state tokens).state := by
  cases hmissing : (caseShape.read tokens).missing with
  | some fault => simp [read, hmissing] at h
  | none =>
    obtain ⟨line, hline⟩ := Line.exists_derives (Shape.fits_of_read hmissing)
    have happend := Shape.read_append caseShape tokens
    have hproblems : problems bindings state (caseShape.read tokens).matched = [] := by
      simp only [read, hmissing] at h
      split at h
      · assumption
      · exact h
    obtain ⟨result, hresult⟩ := (hline.problems_eq_nil_iff bindings owner state).mp hproblems
    have hread : read bindings stop owner state tokens =
        { state := result, diagnostics := [], rest := (caseShape.read tokens).rest } := by
      rw [← read_of_enter? hline hresult, happend]
    rw [hread]
    exact ⟨line, _, happend.symm, hline, hresult⟩

end Case

/-! ### Blocks -/

theorem Case.endsBlock_of_rightBrace {token : Token} (h : token.kind = .rightBrace) :
    endsBlock token = true := by
  simp [endsBlock, h]

namespace Block

variable {bindings : Bindings} {stop : Span} {owner : String}

open Grammar

/-- The first token of a line does not end the block. -/
theorem exists_cons_of_derives {line : Line} {tokens : List Token} (h : line.Derives tokens) :
    ∃ token rest, tokens = token :: rest ∧ Case.endsBlock token = false := by
  obtain ⟨hinput, -⟩ := h
  refine ⟨_, _, rfl, ?_⟩
  have hkind := hinput.isSymbol
  simp only [isSymbol, Bool.or_eq_true, beq_iff_eq] at hkind
  rcases hkind with h | h <;>
    simp [Case.endsBlock, Token.startsDefinition, Token.Kind.startsDefinition, h]

/-- Reading lines that can be entered enters them all, up to the token that ends the block. -/
theorem read_of_enter? {lines : List Line} {body : List Token} {closing : Token}
    (h : Many Line.Derives lines body) (hclosing : Case.endsBlock closing = true)
    {state result : State} (henter : lines.foldlM (Line.enter? bindings owner) state = some result)
    (stop : Span) (rest : List Token) :
    read bindings stop owner state (body ++ closing :: rest) =
      { state := result, diagnostics := [], rest := closing :: rest } := by
  induction h generalizing state with
  | nil =>
    obtain rfl : state = result := by simpa using henter
    exact read_of_endsBlock bindings stop owner state rest hclosing
  | cons hline _ ih =>
    simp only [List.foldlM_cons, Option.bind_eq_bind, Option.bind_eq_some_iff] at henter
    obtain ⟨next, hnext, hrest⟩ := henter
    have hcase := Case.read_of_enter? hline hnext stop
    obtain ⟨token, more, rfl, hends⟩ := exists_cons_of_derives hline
    rw [List.append_assoc, List.cons_append, read_of_not_endsBlock _ _ _ _ _ hends,
      ← List.cons_append, hcase]
    simp only [ih hrest, List.append_nil]

/-- What is read without a diagnostic is a row of lines that can be entered. -/
theorem exists_lines_of_read {state : State} {tokens : List Token}
    (h : (read bindings stop owner state tokens).diagnostics = []) :
    ∃ (lines : List Line) (body : List Token),
      tokens = body ++ (read bindings stop owner state tokens).rest ∧
      Many Line.Derives lines body ∧
      lines.foldlM (Line.enter? bindings owner) state =
        some (read bindings stop owner state tokens).state := by
  fun_induction read bindings stop owner state tokens with
  | case1 state => exact ⟨[], [], rfl, .nil, rfl⟩
  | case2 state token tokens _ => exact ⟨[], [], rfl, .nil, rfl⟩
  | case3 state token tokens _ step block ih =>
    obtain ⟨hstep, hblock⟩ := List.append_eq_nil_iff.mp h
    obtain ⟨line, taken, htaken, hline, henter⟩ := Case.exists_line_of_read hstep
    obtain ⟨lines, body, hbody, hlines, henters⟩ := ih hblock
    refine ⟨line :: lines, taken ++ body, ?_, .cons hline hlines, ?_⟩
    · rw [List.append_assoc, ← hbody]
      exact htaken
    · rw [List.foldlM_cons, henter]
      exact henters

/-- A block is closed without a diagnostic exactly if its brace is there. -/
theorem exists_cons_of_close {tokens : List Token} (h : (close stop tokens).1 = []) :
    ∃ closing, tokens = closing :: (close stop tokens).2 ∧ closing.kind = .rightBrace := by
  cases tokens with
  | nil => simp [close] at h
  | cons token tokens =>
    rw [close] at h ⊢
    split at h
    · next hkind => exact ⟨token, by rw [if_pos hkind], hkind⟩
    · simp at h

end Block

/-! ### Definitions -/

namespace Definition

variable {bindings : Bindings} {stop : Span} {automaton : Automaton}

open Grammar

/-- Behind a complete head, a state is its block and the closing brace. -/
theorem readState_of_header {keyword name opening : Token} (hkeyword : keyword.kind = .state)
    (hname : name.kind = .identifier) (hopening : opening.kind = .leftBrace) (bindings : Bindings)
    (stop : Span) (automaton : Automaton) (initial : Bool) (tokens : List Token) :
    readState bindings stop automaton initial (keyword :: name :: opening :: tokens) =
      let block := Block.read bindings stop name.value [] tokens
      let closed := Block.close stop block.rest
      { automaton := register bindings automaton initial name.value block.state
        diagnostics := block.diagnostics ++ closed.1
        rest := closed.2 } := by
  have hfits : headerShape.Fits [keyword, name, opening] := by
    simp [headerShape, Shape.Fits, hkeyword, hname, hopening]
  have hheader := Shape.read_of_fits hfits tokens
  simp only [List.cons_append, List.nil_append] at hheader
  simp only [readState, hheader]
  rfl

/-- A head that is read completely has its three tokens. -/
theorem exists_header_of_read {tokens : List Token}
    (h : (headerShape.read tokens).missing = none) :
    ∃ keyword name opening rest, tokens = keyword :: name :: opening :: rest ∧
      keyword.kind = .state ∧ name.kind = .identifier ∧ opening.kind = .leftBrace := by
  have happend := Shape.read_append headerShape tokens
  have hfits := Shape.fits_of_read h
  simp only [headerShape, Shape.fits_cons_iff, Shape.fits_nil_iff, beq_iff_eq] at hfits
  obtain ⟨keyword, _, hmatched, hkeyword, name, _, rfl, hname, opening, _, rfl, hopening, rfl⟩ :=
    hfits
  rw [← headerShape] at hmatched
  rw [hmatched] at happend
  exact ⟨keyword, name, opening, _, happend.symm, hkeyword, hname, hopening⟩

/-- A state whose lines can be entered is registered, with or without a mark. -/
theorem readState_of_enter? {name : String} {lines : List Line} {tokens : List Token}
    (h : (Item.state false name lines).Derives tokens) {state : State}
    (henter : lines.foldlM (Line.enter? bindings name) [] = some state) (stop : Span)
    (automaton : Automaton) (initial : Bool) (rest : List Token) :
    readState bindings stop automaton initial (tokens ++ rest) =
      { automaton := register bindings automaton initial name state, diagnostics := [], rest } := by
  cases h with
  | state hkeyword hname hopening hbody hclosing =>
    have hends := Case.endsBlock_of_rightBrace hclosing
    simp only [List.cons_append, List.append_assoc, List.nil_append]
    rw [readState_of_header hkeyword hname hopening,
      Block.read_of_enter? hbody hends henter stop rest]
    simp [Block.close, hclosing]

/-- A state read without a diagnostic is one whose lines can be entered. -/
theorem exists_state_of_readState {initial : Bool} {tokens : List Token}
    (h : (readState bindings stop automaton initial tokens).diagnostics = []) :
    ∃ (name : String) (lines : List Line) (taken : List Token) (state : State),
      tokens = taken ++ (readState bindings stop automaton initial tokens).rest ∧
      (Item.state false name lines).Derives taken ∧
      lines.foldlM (Line.enter? bindings name) [] = some state ∧
      (readState bindings stop automaton initial tokens).automaton =
        register bindings automaton initial name state := by
  cases hmissing : (headerShape.read tokens).missing with
  | some fault => simp [readState, hmissing] at h
  | none =>
    obtain ⟨keyword, name, opening, tokens, rfl, hkeyword, hname, hopening⟩ :=
      exists_header_of_read hmissing
    rw [readState_of_header hkeyword hname hopening] at h ⊢
    obtain ⟨hblock, hclose⟩ := List.append_eq_nil_iff.mp h
    obtain ⟨lines, body, hbody, hlines, henter⟩ := Block.exists_lines_of_read hblock
    obtain ⟨closing, hrest, hclosing⟩ := Block.exists_cons_of_close hclose
    refine ⟨name.value, lines, keyword :: name :: opening :: (body ++ [closing]), _, ?_,
      .state hkeyword hname hopening hlines hclosing, henter, rfl⟩
    rw [hrest] at hbody
    simpa using hbody

/-- A constant that is there is only passed over. -/
theorem readConstant_of_literal {name literal : Token} (hname : name.kind = .identifier)
    (hliteral : literal.kind = .character ∨ literal.kind = .string) (stop : Span)
    (automaton : Automaton) (rest : List Token) :
    readConstant stop automaton (name :: literal :: rest) =
      { automaton, diagnostics := [], rest } := by
  have hfits : constantShape.Fits [name, literal] := by
    simp [constantShape, Shape.Fits, hname, hliteral]
  have hread := Shape.read_of_fits hfits rest
  simp only [List.cons_append, List.nil_append] at hread
  simp only [readConstant, hread]

/-- A constant read without a diagnostic is there. -/
theorem exists_constant_of_readConstant {tokens : List Token}
    (h : (readConstant stop automaton tokens).diagnostics = []) :
    ∃ name literal, tokens = name :: literal :: (readConstant stop automaton tokens).rest ∧
      name.kind = .identifier ∧ (literal.kind = .character ∨ literal.kind = .string) := by
  have happend := Shape.read_append constantShape tokens
  cases hmissing : (constantShape.read tokens).missing with
  | some fault => simp [readConstant, hmissing] at h
  | none =>
    have hfits := Shape.fits_of_read hmissing
    simp only [constantShape, Shape.fits_cons_iff, Shape.fits_nil_iff, beq_iff_eq,
      Bool.or_eq_true] at hfits
    obtain ⟨name, _, hmatched, hname, literal, _, rfl, hliteral, rfl⟩ := hfits
    rw [← constantShape] at hmatched
    rw [hmatched] at happend
    refine ⟨name, literal, ?_, hname, hliteral⟩
    rw [readConstant, hmissing]
    exact happend.symm

/-- A definition that can be entered is read as its entry, and what stands behind it is left. -/
theorem readAt_of_enter? {item : Item} {tokens : List Token} (h : item.Derives tokens)
    {result : Automaton} (henter : item.enter? bindings automaton = some result) (stop : Span)
    (rest : List Token) :
    ∃ token more, tokens = token :: more ∧
      readAt bindings stop automaton token (more ++ rest) =
        { automaton := result, diagnostics := [], rest } := by
  cases h with
  | character hkeyword hname hliteral =>
    obtain rfl : automaton = result := by simpa [Item.enter?] using henter
    refine ⟨_, _, rfl, ?_⟩
    simp only [readAt, hkeyword]
    exact readConstant_of_literal hname (.inl hliteral) stop automaton rest
  | string hkeyword hname hliteral =>
    obtain rfl : automaton = result := by simpa [Item.enter?] using henter
    refine ⟨_, _, rfl, ?_⟩
    simp only [readAt, hkeyword]
    exact readConstant_of_literal hname (.inr hliteral) stop automaton rest
  | state hkeyword hname hopening hbody hclosing =>
    simp only [Item.enter?, Bool.false_and, Bool.false_eq_true, if_false,
      Option.map_eq_some_iff] at henter
    obtain ⟨state, hstate, rfl⟩ := henter
    refine ⟨_, _, rfl, ?_⟩
    simp only [readAt, hkeyword]
    exact readState_of_enter? (.state hkeyword hname hopening hbody hclosing) hstate stop automaton
      false rest
  | initial hmark hstate =>
    simp only [Item.enter?, Bool.true_and, Option.ite_none_left_eq_some, bne_iff_ne, ne_eq,
      Decidable.not_not, Option.map_eq_some_iff] at henter
    obtain ⟨hfirst, state, hlines, rfl⟩ := henter
    refine ⟨_, _, rfl, ?_⟩
    simp only [readAt, hmark, readInitial, hfirst, beq_self_eq_true, if_true]
    exact readState_of_enter? hstate hlines stop automaton true rest

/-- What is read without a diagnostic is a definition that can be entered. -/
theorem exists_item_of_readAt {token : Token} {tokens : List Token}
    (h : (readAt bindings stop automaton token tokens).diagnostics = []) :
    ∃ (item : Item) (taken : List Token),
      token :: tokens = taken ++ (readAt bindings stop automaton token tokens).rest ∧
      item.Derives taken ∧
      item.enter? bindings automaton =
        some (readAt bindings stop automaton token tokens).automaton := by
  unfold readAt at h ⊢
  split at h
  · next hkind =>
    obtain ⟨name, literal, htokens, hname, hliteral⟩ := exists_constant_of_readConstant h
    have hautomaton : (readConstant stop automaton tokens).automaton = automaton := by
      rw [htokens, readConstant_of_literal hname hliteral]
    rcases hliteral with hliteral | hliteral
    · refine ⟨.character name.value literal.value, [token, name, literal], ?_,
        .character hkind hname hliteral, ?_⟩
      · simpa using htokens
      · rw [hautomaton]
        rfl
    · refine ⟨.string name.value literal.value, [token, name, literal], ?_,
        .string hkind hname hliteral, ?_⟩
      · simpa using htokens
      · rw [hautomaton]
        rfl
  · next hkind =>
    -- a mark is accepted only on the first initial state
    unfold readInitial at h ⊢
    split at h
    · next hfirst =>
      obtain ⟨name, lines, taken, state, htokens, hstate, hlines, hautomaton⟩ :=
        exists_state_of_readState h
      refine ⟨.state true name lines, token :: taken, ?_, .initial hkind hstate, ?_⟩
      · simpa [hfirst] using htokens
      · simp only [beq_iff_eq] at hfirst
        simp [Item.enter?, hfirst, hlines, hautomaton]
    · simp at h
  · obtain ⟨name, lines, taken, state, htokens, hstate, hlines, hautomaton⟩ :=
      exists_state_of_readState h
    exact ⟨.state false name lines, taken, htokens, hstate, by
      simp [Item.enter?, hlines, hautomaton]⟩
  · simp at h

/-- Reading gives an automaton and no diagnostic exactly if the tokens are those of a derivation
whose definitions can be entered one after the other, with that automaton as the result. -/
theorem readAll_eq_iff {result : Automaton} {tokens : List Token} :
    readAll bindings stop automaton tokens = (result, []) ↔
      ∃ tree : Tree, tree.Derives tokens ∧
        tree.foldlM (Item.enter? bindings) automaton = some result := by
  constructor
  · intro h
    fun_induction readAll bindings stop automaton tokens with
    | case1 automaton =>
      obtain rfl : automaton = result := congrArg Prod.fst h
      exact ⟨[], .nil, rfl⟩
    | case2 automaton token tokens definition later ih =>
      have hresult : later.1 = result := congrArg Prod.fst h
      obtain ⟨hdefinition, hlater⟩ := List.append_eq_nil_iff.mp (congrArg Prod.snd h)
      obtain ⟨item, taken, htaken, hitem, henter⟩ := exists_item_of_readAt hdefinition
      obtain ⟨tree, htree, henters⟩ := ih (Prod.ext hresult hlater)
      refine ⟨item :: tree, ?_, ?_⟩
      · rw [htaken]
        exact .cons hitem htree
      · rw [List.foldlM_cons, henter]
        exact henters
  · intro hgiven
    obtain ⟨tree, htree, henter⟩ := hgiven
    rw [Tree.Derives] at htree
    induction htree generalizing automaton with
    | nil =>
      obtain rfl : automaton = result := by simpa using henter
      exact readAll_nil bindings stop automaton
    | cons hitem _ ih =>
      simp only [List.foldlM_cons, Option.bind_eq_bind, Option.bind_eq_some_iff] at henter
      obtain ⟨next, hnext, hrest⟩ := henter
      obtain ⟨token, more, rfl, hread⟩ := readAt_of_enter? hitem hnext stop _
      rw [List.cons_append, readAll_cons, hread]
      simp [ih hrest]

end Definition

end TapeMachine
