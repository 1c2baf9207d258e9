import TapeMachine.Proofs.Program.Closure
import TapeMachine.Proofs.Program.Sites

/-!
# TapeMachine.Proofs.Program.Origin

An automaton holds nothing that was not written, whatever is wrong with the program.

Inside a broken block a case is tried again behind every token that does not fit, so cases may be
put together from the middle of what is left of other ones. `Block.attempts` are the places at which
a case is tried. They depend on the kinds of the tokens alone and not on the names, which is why
they can be told apart from what the cases mean.

* `Case.Stands` — a complete case, whose names resolve, stands at the head of some tokens.
* `Block.mem_read_iff` — the cases of a block are, for each symbol, the first such case that is
  tried.
* `Definition.Built` — every state comes from a block, and the initial state is one of them. The
  pass keeps this at every step.
* `Program.written_ofText` — the facts together, for all texts.
-/

namespace TapeMachine

open Grammar

/-! ### Cases -/

/-- What fitted a shape fitted one of its places. -/
theorem Shape.exists_slot_of_mem_matched {shape : Shape} {tokens : List Token} {token : Token}
    (h : token ∈ (shape.read tokens).matched) : ∃ slot ∈ shape, slot.accepts token.kind = true := by
  induction shape generalizing tokens with
  | nil => simp at h
  | cons slot slots ih =>
    cases tokens with
    | nil => simp at h
    | cons first tokens =>
      rw [read] at h
      split at h
      · next haccepts =>
        rcases List.mem_cons.mp h with rfl | hmem
        · exact ⟨slot, List.mem_cons_self, haccepts⟩
        · obtain ⟨other, hother, haccepts⟩ := ih hmem
          exact ⟨other, List.mem_cons_of_mem _ hother, haccepts⟩
      · simp at h

namespace Case

variable {bindings : Bindings} {stop : Span} {owner : String} {state : State} {tokens : List Token}

/-- The kinds of the tokens that end the cases of a block. -/
def closingKinds : List Token.Kind :=
  [.rightBrace, .define, .initial, .state]

theorem endsBlock_eq_true_iff {token : Token} :
    endsBlock token = true ↔ token.kind ∈ closingKinds := by
  simp only [endsBlock, Token.startsDefinition, closingKinds]
  cases token.kind <;> decide

/-- A complete case of the state `owner` stands at the head of some tokens, and its names
resolve. -/
def Stands (bindings : Bindings) (owner : String) (tokens : List Token) (entry : String × Case) :
    Prop :=
  ∃ (line : Line) (row rest : List Token),
    tokens = row ++ rest ∧ line.Derives row ∧ line.resolve? bindings owner = some entry

theorem Stands.ofTokens?_eq {entry : String × Case} (h : Stands bindings owner tokens entry) :
    ofTokens? bindings owner (caseShape.read tokens).matched = some entry := by
  obtain ⟨line, row, rest, rfl, hline, hentry⟩ := h
  rw [Shape.read_of_fits hline.fits]
  exact hline.ofTokens?_eq hentry

/-- At most one case stands at the head of some tokens. -/
theorem Stands.unique {entry other : String × Case} (h : Stands bindings owner tokens entry)
    (hother : Stands bindings owner tokens other) : entry = other :=
  Option.some.inj (h.ofTokens?_eq.symm.trans hother.ofTokens?_eq)

/-- What is read without a diagnostic is a case that stands there, for a symbol that is new. -/
theorem exists_stands_of_read (h : (read bindings stop owner state tokens).diagnostics = []) :
    ∃ entry, Stands bindings owner tokens entry ∧ entry.1 ∉ state.names ∧
      (read bindings stop owner state tokens).state = state.add entry.1 entry.2 := by
  obtain ⟨line, row, hrow, hline, henter⟩ := exists_line_of_read h
  obtain ⟨entry, hentry, hnew, hstate⟩ := Line.enter?_eq_some_iff.mp henter
  exact ⟨entry, ⟨line, row, _, hrow, hline, hentry⟩, (Table.has_eq_false_iff _ _).mp hnew, hstate⟩

theorem read_state_of_diagnostics (h : (read bindings stop owner state tokens).diagnostics ≠ []) :
    (read bindings stop owner state tokens).state = state := by
  simp only [read] at h ⊢
  split
  · rfl
  · split
    · simp [*] at h
    · rfl

/-- Trying a case adds the case that stands there, if its symbol is new, and nothing else. -/
theorem mem_read_state_iff {entry : String × Case} :
    entry ∈ (read bindings stop owner state tokens).state ↔
      entry ∈ state ∨ entry.1 ∉ state.names ∧ Stands bindings owner tokens entry := by
  by_cases hread : (read bindings stop owner state tokens).diagnostics = []
  · obtain ⟨found, hfound, hnew, hstate⟩ := exists_stands_of_read hread
    rw [hstate, Table.add, List.mem_append, List.mem_singleton]
    refine or_congr_right ⟨?_, fun h => h.2.unique hfound⟩
    rintro rfl
    exact ⟨hnew, hfound⟩
  · rw [read_state_of_diagnostics hread]
    refine (or_iff_left ?_).symm
    rintro ⟨hnew, line, row, rest, rfl, hline, hentry⟩
    -- a case for a new symbol leaves nothing to report
    have henter := Line.enter?_eq_some_iff.mpr
      ⟨entry, hentry, (Table.has_eq_false_iff _ _).mpr hnew, rfl⟩
    rw [read_of_enter? hline henter] at hread
    exact hread rfl

/-- After a case was tried, the state has a case for its symbol, that one or an older one. -/
theorem mem_names_read_state_iff {symbol : String} :
    symbol ∈ (read bindings stop owner state tokens).state.names ↔
      symbol ∈ state.names ∨ ∃ found, Stands bindings owner tokens found ∧ found.1 = symbol := by
  constructor
  · intro h
    obtain ⟨entry, hentry, rfl⟩ := List.mem_map.mp h
    rcases mem_read_state_iff.mp hentry with hold | ⟨-, hstands⟩
    · exact .inl (List.mem_map_of_mem hold)
    · exact .inr ⟨entry, hstands, rfl⟩
  · intro h
    have hold : ∀ symbol ∈ state.names,
        symbol ∈ (read bindings stop owner state tokens).state.names := by
      intro symbol hmem
      obtain ⟨entry, hentry, rfl⟩ := List.mem_map.mp hmem
      exact List.mem_map_of_mem (mem_read_state_iff.mpr (.inl hentry))
    rcases h with hmem | ⟨found, hfound, rfl⟩
    · exact hold symbol hmem
    · by_cases hmem : found.1 ∈ state.names
      · exact hold found.1 hmem
      · exact List.mem_map_of_mem (mem_read_state_iff.mpr (.inr ⟨hmem, hfound⟩))

/-- The tokens behind a case that is tried, complete or not. -/
def behind (tokens : List Token) : List Token :=
  if (caseShape.read tokens).missing.isSome then skipFault (caseShape.read tokens).rest
  else (caseShape.read tokens).rest

theorem behind_length_lt {token : Token} (tokens : List Token) (h : endsBlock token = false) :
    (behind (token :: tokens)).length < (token :: tokens).length := by
  have hlt := read_rest_length_lt [] { position := 0, length := 0 } "" [] tokens h
  rwa [read_rest] at hlt

/-- A case that is tried passes over no token that ends the block. -/
theorem exists_passed (tokens : List Token) :
    ∃ passed, tokens = passed ++ behind tokens ∧ ∀ token ∈ passed, token.kind ∉ closingKinds := by
  have happend := caseShape.read_append tokens
  have hmatched : ∀ token ∈ (caseShape.read tokens).matched, token.kind ∉ closingKinds := by
    intro token hmem hkind
    obtain ⟨slot, hslot, haccepts⟩ := Shape.exists_slot_of_mem_matched hmem
    -- a token that ends a block fits no place of a case
    have hshape : ∀ kind ∈ closingKinds, ∀ slot ∈ caseShape, slot.accepts kind = false := by
      decide
    rw [hshape _ hkind slot hslot] at haccepts
    cases haccepts
  rw [behind]
  split
  · cases hrest : (caseShape.read tokens).rest with
    | nil => exact ⟨_, by rw [skipFault, ← hrest, happend], hmatched⟩
    | cons token rest =>
      rw [skipFault]
      split
      · exact ⟨_, by rw [← hrest, happend], hmatched⟩
      · next hends =>
        refine ⟨(caseShape.read tokens).matched ++ [token], ?_, ?_⟩
        · rw [List.append_assoc, List.singleton_append, ← hrest, happend]
        · intro other hmem
          rcases List.mem_append.mp hmem with hmem | hmem
          · exact hmatched other hmem
          · rw [List.mem_singleton.mp hmem]
            exact mt endsBlock_eq_true_iff.mpr hends
  · exact ⟨_, happend.symm, hmatched⟩

end Case

/-! ### Blocks -/

namespace Block

variable {bindings : Bindings} {owner : String} {entry : String × Case}

/-- The ends of a block at which a case is tried, in order. -/
def attempts : List Token → List (List Token)
  | [] => []
  | token :: tokens =>
    if Case.endsBlock token then []
    else (token :: tokens) :: attempts (Case.behind (token :: tokens))
termination_by tokens => tokens.length
decreasing_by
  next h => exact Case.behind_length_lt tokens (by simpa using h)

/-- Between the start of a block and a place at which a case is tried, no token ends the block. -/
theorem exists_between_of_mem_attempts {tokens row : List Token} (h : row ∈ attempts tokens) :
    ∃ between, tokens = between ++ row ∧ ∀ token ∈ between, token.kind ∉ Case.closingKinds := by
  fun_induction attempts tokens with
  | case1 => cases h
  | case2 token tokens _ => cases h
  | case3 token tokens _ ih =>
    rcases List.mem_cons.mp h with rfl | hmem
    · exact ⟨[], rfl, by simp⟩
    · obtain ⟨passed, hpassed, hkinds⟩ := Case.exists_passed (token :: tokens)
      obtain ⟨between, hbetween, hmore⟩ := ih hmem
      refine ⟨passed ++ between, ?_, ?_⟩
      · rw [List.append_assoc, ← hbetween]
        exact hpassed
      · intro other hother
        rcases List.mem_append.mp hother with hother | hother
        · exact hkinds other hother
        · exact hmore other hother

/-- A case stands at one of some rows, and at none before it stands one for the same symbol. -/
def IsFirst (bindings : Bindings) (owner : String) (rows : List (List Token))
    (entry : String × Case) : Prop :=
  ∃ earlier row later, rows = earlier ++ row :: later ∧ Case.Stands bindings owner row entry ∧
    ∀ other ∈ earlier, ∀ found, Case.Stands bindings owner other found → found.1 ≠ entry.1

theorem not_isFirst_nil : ¬ IsFirst bindings owner [] entry := by
  intro h
  obtain ⟨earlier, row, later, hrows, -⟩ := h
  simp at hrows

/-- The first case of a symbol stands at the first row, or else that row has none for it. -/
theorem isFirst_cons_iff {row : List Token} {rows : List (List Token)} :
    IsFirst bindings owner (row :: rows) entry ↔
      Case.Stands bindings owner row entry ∨
        (∀ found, Case.Stands bindings owner row found → found.1 ≠ entry.1) ∧
          IsFirst bindings owner rows entry := by
  constructor
  · intro h
    obtain ⟨earlier, first, later, hrows, hstands, hbefore⟩ := h
    cases earlier with
    | nil =>
      obtain ⟨rfl, rfl⟩ := List.cons.inj hrows
      exact .inl hstands
    | cons head earlier =>
      obtain ⟨rfl, rfl⟩ := List.cons.inj hrows
      obtain ⟨hhead, htail⟩ := List.forall_mem_cons.mp hbefore
      exact .inr ⟨hhead, earlier, first, later, rfl, hstands, htail⟩
  · intro h
    rcases h with hstands | ⟨hhead, earlier, first, later, rfl, hstands, hbefore⟩
    · exact ⟨[], row, rows, rfl, hstands, by simp⟩
    · exact ⟨row :: earlier, first, later, rfl, hstands, List.forall_mem_cons.mpr ⟨hhead, hbefore⟩⟩

/-- A case that is tried and others behind it add, to the cases there are, the first one of each
symbol that is new. -/
theorem mem_read_or_isFirst_iff (stop : Span) (state : State) (row : List Token)
    (rows : List (List Token)) :
    (entry ∈ (Case.read bindings stop owner state row).state ∨
        entry.1 ∉ (Case.read bindings stop owner state row).state.names ∧
          IsFirst bindings owner rows entry) ↔
      entry ∈ state ∨ entry.1 ∉ state.names ∧ IsFirst bindings owner (row :: rows) entry := by
  rw [isFirst_cons_iff, Case.mem_read_state_iff, Case.mem_names_read_state_iff]
  simp only [not_or, not_exists, not_and]
  rw [or_assoc, and_assoc, ← and_or_left]

/-- Beyond the cases it starts with, a block gives the first case of each symbol that is new. -/
theorem mem_read_iff (stop : Span) (state : State) (tokens : List Token) :
    entry ∈ (read bindings stop owner state tokens).state ↔
      entry ∈ state ∨
        entry.1 ∉ state.names ∧ IsFirst bindings owner (attempts tokens) entry := by
  fun_induction read bindings stop owner state tokens with
  | case1 state => simp [attempts, not_isFirst_nil]
  | case2 state token tokens hends => simp [attempts, hends, not_isFirst_nil]
  | case3 state token tokens hends step block ih =>
    -- where the next case is tried does not depend on the cases so far
    have hrows : attempts (token :: tokens) = (token :: tokens) :: attempts step.rest := by
      rw [attempts, if_neg hends, Case.behind, ← Case.read_rest bindings stop owner state]
    show entry ∈ block.state ↔ _
    rw [ih, hrows]
    exact mem_read_or_isFirst_iff stop state (token :: tokens) (attempts step.rest)

/-- The cases of a block are, for each symbol, the first one that is tried. -/
theorem mem_read_nil_iff (stop : Span) (tokens : List Token) :
    entry ∈ (read bindings stop owner [] tokens).state ↔
      IsFirst bindings owner (attempts tokens) entry := by
  simp [mem_read_iff]

end Block

/-! ### What a case that stands there has -/

/-- A character constant has the value of a character literal. -/
theorem Declaration.exists_literal_of_lookup {tokens : List Token} {name value : String}
    (h : (bindings (ofTokens tokens)).lookup name = some (.character value)) :
    ∃ literal ∈ tokens, literal.kind = .character ∧ literal.value = value := by
  obtain ⟨front, back, hbindings, -⟩ := List.lookup_eq_some_iff.mp h
  have hmem : (name, Binding.character value) ∈ (firstSites tokens).map entry := by
    rw [← bindings_ofTokens, hbindings]
    simp
  obtain ⟨declaration, hsite, hentry⟩ := List.mem_map.mp hmem
  obtain ⟨i, -, hsite⟩ := List.mem_filterMap.mp hsite
  have hbinding : declaration.binding = .character value := congrArg Prod.snd hentry
  simp only [siteAt?, Option.bind_eq_bind, Option.bind_eq_some_iff, Option.ite_none_right_eq_some]
    at hsite
  obtain ⟨keyword, -, name, -, -, hsite⟩ := hsite
  split at hsite
  · obtain rfl := Option.some.inj hsite
    cases hbinding
  · obtain ⟨literal, hliteral, hsite⟩ := Option.bind_eq_some_iff.mp hsite
    split at hsite
    · next hkind =>
      obtain rfl := Option.some.inj hsite
      exact ⟨literal, List.mem_of_getElem? hliteral, hkind, Binding.character.inj hbinding⟩
    · obtain rfl := Option.some.inj hsite
      cases hbinding
    · cases hsite
  · cases hsite

/-- A symbol resolves to a single character, if literals and constants are such. -/
theorem Grammar.Symbol.length_of_resolve? {bindings : Bindings} {symbol : Symbol} {value : String}
    (h : symbol.resolve? bindings = some value)
    (hliteral : ∀ value, symbol = .literal value → value.length = 1)
    (hconstants : ∀ name value, bindings.lookup name = some (.character value) →
      value.length = 1) : value.length = 1 := by
  cases symbol with
  | literal literal =>
    obtain rfl := Option.some.inj h
    exact hliteral literal rfl
  | constant name =>
    obtain ⟨binding, hbinding, hvalue⟩ := Option.bind_eq_some_iff.mp h
    cases binding with
    | state => cases hvalue
    | string text => cases hvalue
    | character character =>
      obtain rfl := Option.some.inj hvalue
      exact hconstants name character hbinding

namespace Case

variable {bindings : Bindings} {owner : String} {tokens : List Token} {entry : String × Case}

/-- So a case that stands there is for a single character, and writes one. -/
theorem Stands.single (h : Stands bindings owner tokens entry)
    (hspelled : ∀ token ∈ tokens, token.WellSpelled)
    (hconstants : ∀ name value, bindings.lookup name = some (.character value) →
      value.length = 1) : entry.1.length = 1 ∧ entry.2.replacement.length = 1 := by
  obtain ⟨line, row, rest, rfl, hline, hentry⟩ := h
  have hliterals : line.WellSpelled := by
    apply hline.wellSpelled
    intro token hmem
    exact hspelled token (List.mem_append_left _ hmem)
  obtain ⟨symbol, replacement, target, hsymbol, hreplacement, -, rfl⟩ :=
    Line.resolve?_eq_some_iff.mp hentry
  constructor
  · exact Symbol.length_of_resolve? hsymbol (fun value h => hliterals value (.inl h)) hconstants
  · exact Symbol.length_of_resolve? hreplacement (fun value h => hliterals value (.inr h)) hconstants

/-- The target of a case that stands there is declared as a state, if its owner is. -/
theorem Stands.isState_target (h : Stands bindings owner tokens entry)
    (howner : bindings.isState owner = true) : bindings.isState entry.2.target = true := by
  obtain ⟨line, row, rest, rfl, -, hentry⟩ := h
  obtain ⟨symbol, replacement, target, -, -, htarget, rfl⟩ := Line.resolve?_eq_some_iff.mp hentry
  cases hgoal : line.target with
  | self =>
    rw [hgoal] at htarget
    obtain rfl := Option.some.inj htarget
    exact howner
  | state name =>
    rw [hgoal, Target.resolve?, Option.ite_none_right_eq_some] at htarget
    obtain ⟨hstate, hname⟩ := htarget
    obtain rfl := Option.some.inj hname
    exact hstate

end Case

/-! ### Runs -/

namespace Definition

variable {bindings : Bindings} {stop : Span} {tokens : List Token} {automaton : Automaton}

/-- The states of an automaton come from blocks that the pass over some tokens reads, and its
initial state is one of them. -/
structure Built (bindings : Bindings) (stop : Span) (tokens : List Token) (automaton : Automaton) :
    Prop where
  /-- The states are declared. -/
  declared : ∀ name ∈ automaton.states.names, bindings.isState name = true
  /-- The cases of a state are those of a block of its name. -/
  blocks : ∀ entry ∈ automaton.states, ∃ name block,
    ReadsBlock bindings stop Automaton.empty tokens name block ∧ name.value = entry.1 ∧
      entry.2 = (Block.read bindings stop entry.1 [] block).state
  /-- The initial state is missing or one of the states. -/
  initial : automaton.initial = "" ∨ automaton.initial ∈ automaton.states.names

theorem built_empty (bindings : Bindings) (stop : Span) (tokens : List Token) :
    Built bindings stop tokens Automaton.empty where
  declared := by simp [Automaton.empty]
  blocks := by simp [Automaton.empty]
  initial := .inl rfl

/-- Registering a block that the pass reads keeps what was built. -/
theorem Built.register (h : Built bindings stop tokens automaton) {name : Token}
    {block : List Token} (hblock : ReadsBlock bindings stop Automaton.empty tokens name block)
    (initial : Bool) :
    Built bindings stop tokens (register bindings automaton initial name.value
      (Block.read bindings stop name.value [] block).state) := by
  rw [Definition.register]
  split
  · next hnew =>
    rw [Bool.and_eq_true] at hnew
    constructor
    · intro other hother
      rw [Table.names_add, List.mem_append, List.mem_singleton] at hother
      rcases hother with hother | rfl
      · exact h.declared other hother
      · exact hnew.1
    · intro entry hentry
      rw [Table.add, List.mem_append, List.mem_singleton] at hentry
      rcases hentry with hentry | rfl
      · exact h.blocks entry hentry
      · exact ⟨name, block, hblock, rfl, rfl⟩
    · rw [Table.names_add, List.mem_append, List.mem_singleton]
      cases initial with
      | true => exact .inr (.inr rfl)
      | false => exact h.initial.imp_right .inl
  · exact h

/-- Every case of what was built stands somewhere among the tokens. -/
theorem Built.exists_stands (h : Built bindings stop tokens automaton) {entry : String × State}
    (hentry : entry ∈ automaton.states) {case : String × Case} (hcase : case ∈ entry.2) :
    ∃ row, Case.Stands bindings entry.1 row case ∧ ∀ token ∈ row, token ∈ tokens := by
  obtain ⟨name, block, hblock, -, hstate⟩ := h.blocks entry hentry
  obtain ⟨before, keyword, opening, rfl, -⟩ := hblock.exists_head
  rw [hstate, Block.mem_read_nil_iff] at hcase
  obtain ⟨earlier, row, later, hrows, hstands, -⟩ := hcase
  have hrow : row ∈ Block.attempts block := by simp [hrows]
  obtain ⟨between, rfl, -⟩ := Block.exists_between_of_mem_attempts hrow
  exact ⟨row, hstands, fun token hmem => by simp [hmem]⟩

/-- What the pass comes by is built of the blocks it reads. -/
theorem Reaches.built {rest : List Token}
    (h : Reaches bindings stop Automaton.empty tokens automaton rest) :
    Built bindings stop tokens automaton := by
  induction h with
  | start => exact built_empty bindings stop tokens
  | @step reached token rest hreaches ih =>
    rcases readAt_cases bindings stop reached token rest with
      ⟨marked, name, block, hopens, hstate⟩ | hsame
    · rw [hstate]
      exact ih.register ⟨reached, _, marked, hreaches, hopens⟩ _
    · rw [hsame]
      exact ih

end Definition

/-! ### Programs -/

namespace Program

/-- All that a program gives is written among the tokens of its body. -/
structure Written (body : Body) (program : Program) : Prop where
  /-- The states are declared as such. -/
  states : ∀ name ∈ program.automaton.states.names, program.bindings.isState name = true
  /-- So are the targets of their cases. -/
  targets : ∀ entry ∈ program.automaton.states, ∀ case ∈ entry.2,
    program.bindings.isState case.2.target = true
  /-- Symbols and replacements are single characters. -/
  single : ∀ entry ∈ program.automaton.states, ∀ case ∈ entry.2,
    case.1.length = 1 ∧ case.2.replacement.length = 1
  /-- The cases of a state are those that stand in a block behind its head, for each symbol the
  first one that is tried. Nothing between the head and such a case ends the block. -/
  cases : ∀ entry ∈ program.automaton.states, ∃ before keyword name opening block,
    body.tokens = before ++ keyword :: name :: opening :: block ∧
    keyword.kind = .state ∧ name.kind = .identifier ∧ name.value = entry.1 ∧
    opening.kind = .leftBrace ∧
    (∀ case, case ∈ entry.2 ↔
      Block.IsFirst program.bindings entry.1 (Block.attempts block) case) ∧
    ∀ row ∈ Block.attempts block, ∃ between, block = between ++ row ∧
      ∀ token ∈ between, token.kind ∉ [.rightBrace, .define, .initial, .state]
  /-- The initial state is missing or one of the states. -/
  initial : program.automaton.initial = "" ∨
    program.automaton.initial ∈ program.automaton.states.names
  /-- That there is none is reported once and last, and only then. -/
  reported : ∃ earlier, (∀ diagnostic ∈ earlier, diagnostic.kind ≠ .parse .noInitialState) ∧
    program.diagnostics = earlier ++
      if program.automaton.initial = "" then
        [{ kind := .parse .noInitialState, place := none, value := "" }]
      else []

/-- Neither pass over the tokens reports a missing initial state. -/
theorem exists_earlier_diagnostics (tokens : List Token) :
    ∃ earlier, (∀ diagnostic ∈ earlier, diagnostic.kind ≠ .parse .noInitialState) ∧
      (ofTokens tokens).diagnostics = earlier ++ initialProblems (ofTokens tokens).automaton := by
  refine ⟨_, ?_, rfl⟩
  intro diagnostic hmem
  rcases List.mem_append.mp hmem with hmem | hmem
  · rw [Declaration.kind_of_mem_repeated hmem]
    decide
  · exact Definition.kind_ne_of_mem_readAll hmem rfl

/-- Whatever the text is, all that is read of it is written in it. -/
theorem written_ofText (source : Text) :
    Written (Body.ofTokens (Token.ofText source)) (ofTokens (Token.ofText source)) := by
  have hspelled : ∀ token ∈ (Body.ofTokens (Token.ofText source)).tokens, token.WellSpelled :=
    fun token hmem => Token.ofTextAt_wellSpelled 0 source token (Body.mem_of_mem_tokens hmem)
  have hbuilt : Definition.Built (ofTokens (Token.ofText source)).bindings
      (Body.ofTokens (Token.ofText source)).stop (Body.ofTokens (Token.ofText source)).tokens
      (ofTokens (Token.ofText source)).automaton :=
    (Definition.reaches_readAll _ _ _ _).built
  refine ⟨hbuilt.declared, ?_, ?_, ?_, hbuilt.initial, ?_⟩
  · intro entry hentry case hcase
    obtain ⟨row, hstands, -⟩ := hbuilt.exists_stands hentry hcase
    exact hstands.isState_target (hbuilt.declared _ (List.mem_map_of_mem hentry))
  · intro entry hentry case hcase
    obtain ⟨row, hstands, hrow⟩ := hbuilt.exists_stands hentry hcase
    refine hstands.single (fun token hmem => hspelled token (hrow token hmem)) ?_
    intro name value hlookup
    obtain ⟨literal, hmem, hkind, rfl⟩ := Declaration.exists_literal_of_lookup hlookup
    exact (hspelled literal hmem).character hkind
  · intro entry hentry
    obtain ⟨name, block, hblock, hvalue, hstate⟩ := hbuilt.blocks entry hentry
    obtain ⟨before, keyword, opening, htokens, hkeyword, hname, hopening⟩ := hblock.exists_head
    refine ⟨before, keyword, name, opening, block, htokens, hkeyword, hname, hvalue, hopening, ?_,
      fun row hrow => Block.exists_between_of_mem_attempts hrow⟩
    intro case
    rw [hstate, Block.mem_read_nil_iff]
  · simpa only [initialProblems, beq_iff_eq] using exists_earlier_diagnostics (Token.ofText source)

end Program

end TapeMachine
