import Mathlib.Data.List.Forall2
import TapeMachine.Program.Definitions

/-!
# TapeMachine.Proofs.Program.Places

The definition pass looks at what its tokens are, never at where they stand.

A place enters a diagnostic by being copied from a token or from the end of the tokens; nothing
compares places or computes with them. So two runs over tokens that agree in kinds and values go the
same way, and what the one reports at a token the other reports at the corresponding one. This is
said for an arbitrary relation `Place` between the places of the two runs: each function of the pass
takes related tokens to related results.

* `Token.Moved`, `Diagnostic.Moved` — the same token and the same complaint, at related places.
* `Definition.readAll_moved` — related tokens give the same automaton and related diagnostics.
* `Definition.kind_ne_of_mem_readAll` — compared with itself, a run shows which faults the pass can
  report at all.
-/

namespace TapeMachine

/-- The faults that the definition pass reports. The other two are reported by the declaration pass
and of the program as a whole. -/
def ParseFault.ofDefinitions : ParseFault → Bool
  | .nameInUse | .noInitialState => false
  | _ => true

/-- Two tokens that are the same up to their faults and to where they stand. -/
structure Token.Moved (Place : Span → Span → Prop) (token other : Token) : Prop where
  /-- They are of one kind. -/
  kind : token.kind = other.kind
  /-- They have one value. -/
  value : token.value = other.value
  /-- They stand at related places. -/
  span : Place token.span other.span

/-- Two diagnostics that say the same, about one of the given faults, at related places. -/
inductive Diagnostic.Moved (Fault : ParseFault → Prop) (Place : Span → Span → Prop) :
    Diagnostic → Diagnostic → Prop where
  | mk {fault : ParseFault} {span other : Span} {value : String} :
      Fault fault → Place span other → Moved Fault Place (atSpan fault span value)
        (atSpan fault other value)

section

variable {Place : Span → Span → Prop}

theorem Token.Moved.startsDefinition_eq {token other : Token} (h : token.Moved Place other) :
    token.startsDefinition = other.startsDefinition := by
  rw [startsDefinition, startsDefinition, h.kind]

theorem Token.Moved.endsBlock_eq {token other : Token} (h : token.Moved Place other) :
    Case.endsBlock token = Case.endsBlock other := by
  rw [Case.endsBlock, Case.endsBlock, h.kind, h.startsDefinition_eq]

/-- Tokens in two runs, at related places. -/
abbrev MovedTokens (Place : Span → Span → Prop) : List Token → List Token → Prop :=
  List.Forall₂ (Token.Moved Place)

/-- Diagnostics of the definition pass in two runs, at related places. -/
abbrev MovedReports (Place : Span → Span → Prop) : List Diagnostic → List Diagnostic → Prop :=
  List.Forall₂ (Diagnostic.Moved (fun fault => fault.ofDefinitions = true) Place)

theorem movedReports_single {fault : ParseFault} {span other : Span} (value : String)
    (hfault : fault.ofDefinitions = true) (hplace : Place span other) :
    MovedReports Place [Diagnostic.atSpan fault span value]
      [Diagnostic.atSpan fault other value] :=
  .cons (.mk hfault hplace) .nil

theorem headSpan_moved {stop stop' : Span} {tokens others : List Token} (hstop : Place stop stop')
    (h : MovedTokens Place tokens others) :
    Place (headSpan stop tokens) (headSpan stop' others) := by
  cases h with
  | nil => exact hstop
  | cons hfirst _ => exact hfirst.span

theorem getElem?_moved {tokens others : List Token} (h : MovedTokens Place tokens others)
    (i : Nat) :
    (tokens[i]? = none ∧ others[i]? = none) ∨
      ∃ token other, tokens[i]? = some token ∧ others[i]? = some other ∧
        token.Moved Place other := by
  induction h generalizing i with
  | nil => exact .inl ⟨rfl, rfl⟩
  | cons hfirst _ ih =>
    cases i with
    | zero => exact .inr ⟨_, _, rfl, rfl, hfirst⟩
    | succ i => exact ih i

/-! ### Shapes -/

/-- The fault of a reading is that of one of the places of its shape. -/
theorem Shape.exists_slot_of_missing {shape : Shape} {tokens : List Token} {fault : ParseFault}
    (h : (shape.read tokens).missing = some fault) : ∃ slot ∈ shape, slot.missing = fault := by
  induction shape generalizing tokens with
  | nil => cases h
  | cons slot slots ih =>
    cases tokens with
    | nil => exact ⟨slot, List.mem_cons_self, Option.some.inj h⟩
    | cons token tokens =>
      by_cases haccepts : slot.accepts token.kind = true
      · rw [read, if_pos haccepts] at h
        obtain ⟨other, hother, hfault⟩ := ih h
        exact ⟨other, List.mem_cons_of_mem _ hother, hfault⟩
      · rw [read, if_neg haccepts] at h
        exact ⟨slot, List.mem_cons_self, Option.some.inj h⟩

theorem Shape.ofDefinitions_of_missing (shape : Shape)
    (hshape : ∀ slot ∈ shape, slot.missing.ofDefinitions = true) {tokens : List Token}
    {fault : ParseFault} (h : (shape.read tokens).missing = some fault) :
    fault.ofDefinitions = true := by
  obtain ⟨slot, hslot, rfl⟩ := exists_slot_of_missing h
  exact hshape slot hslot

/-- Two readings of one shape, at related places. -/
structure Reading.Moved (Place : Span → Span → Prop) (reading other : Reading) : Prop where
  /-- The tokens that fitted correspond. -/
  matched : MovedTokens Place reading.matched other.matched
  /-- The same place was not filled. -/
  missing : reading.missing = other.missing
  /-- The tokens that are left correspond. -/
  rest : MovedTokens Place reading.rest other.rest

theorem Shape.read_moved (shape : Shape) {tokens others : List Token}
    (h : MovedTokens Place tokens others) :
    (shape.read tokens).Moved Place (shape.read others) := by
  induction shape generalizing tokens others with
  | nil => exact ⟨.nil, rfl, h⟩
  | cons slot slots ih =>
    cases h with
    | nil => exact ⟨.nil, rfl, .nil⟩
    | @cons token other tokens others hfirst hrest =>
      by_cases haccepts : slot.accepts token.kind = true
      · have hother : slot.accepts other.kind = true := hfirst.kind ▸ haccepts
        rw [read, read, if_pos haccepts, if_pos hother]
        obtain ⟨hmatched, hmissing, hleft⟩ := ih hrest
        exact ⟨.cons hfirst hmatched, hmissing, hleft⟩
      · have hother : ¬ slot.accepts other.kind = true := hfirst.kind ▸ haccepts
        rw [read, read, if_neg haccepts, if_neg hother]
        exact ⟨.nil, rfl, .cons hfirst hrest⟩

/-! ### Cases -/

/-- What reading some of a block gives in two runs. -/
structure Block.Moved (Place : Span → Span → Prop) (block other : Block) : Prop where
  /-- The cases are the same. -/
  state : block.state = other.state
  /-- The diagnostics correspond. -/
  diagnostics : MovedReports Place block.diagnostics other.diagnostics
  /-- The tokens that are left correspond. -/
  rest : MovedTokens Place block.rest other.rest

namespace Case

variable {token other : Token}

theorem symbol?_moved (bindings : Bindings) (h : token.Moved Place other) :
    symbol? bindings token = symbol? bindings other := by
  rw [symbol?, symbol?, h.kind, h.value]

theorem symbolProblems_moved (bindings : Bindings) (h : token.Moved Place other) :
    MovedReports Place (symbolProblems bindings token) (symbolProblems bindings other) := by
  rw [symbolProblems, symbolProblems, symbol?_moved bindings h, h.value]
  cases symbol? bindings other with
  | none => exact movedReports_single _ rfl h.span
  | some symbol => exact .nil

theorem inputProblems_moved (bindings : Bindings) (state : State) (h : token.Moved Place other) :
    MovedReports Place (inputProblems bindings state token)
      (inputProblems bindings state other) := by
  rw [inputProblems, inputProblems, symbol?_moved bindings h, h.value]
  cases symbol? bindings other with
  | none => exact movedReports_single _ rfl h.span
  | some symbol =>
    by_cases hhas : state.has symbol = true
    · simp only [hhas, if_true]
      exact movedReports_single _ rfl h.span
    · simp only [hhas]
      exact .nil

theorem targetProblems_moved (bindings : Bindings) (h : token.Moved Place other) :
    MovedReports Place (targetProblems bindings token) (targetProblems bindings other) := by
  rw [targetProblems, targetProblems, h.kind, h.value]
  by_cases hwrong : (other.kind == .identifier && !bindings.isState other.value) = true
  · rw [if_pos hwrong, if_pos hwrong]
    exact movedReports_single _ rfl h.span
  · rw [if_neg hwrong, if_neg hwrong]
    exact .nil

variable {tokens others : List Token}

theorem problems_moved (bindings : Bindings) (state : State)
    (h : MovedTokens Place tokens others) :
    MovedReports Place (problems bindings state tokens) (problems bindings state others) := by
  have hplace : ∀ i : Nat, MovedTokens Place tokens[i]?.toList others[i]?.toList := by
    intro i
    rcases getElem?_moved h i with ⟨hnone, hnone'⟩ | ⟨token, other, hsome, hsome', hmoved⟩
    · rw [hnone, hnone']
      exact .nil
    · rw [hsome, hsome']
      exact .cons hmoved .nil
  refine List.rel_append (List.rel_append ?_ ?_) ?_
  · exact List.rel_flatMap (hplace 0) fun _ _ => inputProblems_moved bindings state
  · exact List.rel_flatMap (hplace 2) fun _ _ => symbolProblems_moved bindings
  · exact List.rel_flatMap (hplace 6) fun _ _ => targetProblems_moved bindings

theorem ofTokens?_moved (bindings : Bindings) (owner : String)
    (h : MovedTokens Place tokens others) :
    ofTokens? bindings owner tokens = ofTokens? bindings owner others := by
  rcases h with _ | ⟨hinput, _ | ⟨_, _ | ⟨houtput, _ | ⟨_, _ | ⟨hdirection, _ | ⟨_, _ | ⟨htarget,
    _ | _⟩⟩⟩⟩⟩⟩⟩
  -- only a row of seven tokens is a case
  case cons.cons.cons.cons.cons.cons.cons.nil =>
    simp only [ofTokens?, symbol?_moved bindings hinput, symbol?_moved bindings houtput,
      hdirection.kind, htarget.kind, htarget.value]
  all_goals rfl

theorem skipFault_moved (h : MovedTokens Place tokens others) :
    MovedTokens Place (skipFault tokens) (skipFault others) := by
  cases h with
  | nil => exact .nil
  | @cons token other tokens others hfirst hrest =>
    rw [skipFault, skipFault, hfirst.endsBlock_eq]
    by_cases hends : endsBlock other = true
    · rw [if_pos hends, if_pos hends]
      exact .cons hfirst hrest
    · rw [if_neg hends, if_neg hends]
      exact hrest

theorem read_moved (bindings : Bindings) {stop stop' : Span} (hstop : Place stop stop')
    (owner : String) (state : State) (h : MovedTokens Place tokens others) :
    (read bindings stop owner state tokens).Moved Place
      (read bindings stop' owner state others) := by
  obtain ⟨hmatched, hmissing, hrest⟩ := caseShape.read_moved h
  have hproblems := problems_moved bindings state hmatched
  cases hfault : (caseShape.read others).missing with
  | some fault =>
    rw [hfault] at hmissing
    simp only [read, hmissing, hfault]
    have hkind := caseShape.ofDefinitions_of_missing (by decide) hfault
    exact ⟨rfl, List.rel_append hproblems (movedReports_single _ hkind (headSpan_moved hstop hrest)),
      skipFault_moved hrest⟩
  | none =>
    rw [hfault] at hmissing
    simp only [read, hmissing, hfault, ofTokens?_moved bindings owner hmatched]
    generalize problems bindings state (caseShape.read tokens).matched = wrong at hproblems ⊢
    generalize problems bindings state (caseShape.read others).matched = wrong' at hproblems ⊢
    cases hproblems with
    | nil =>
      cases ofTokens? bindings owner (caseShape.read others).matched with
      | none => exact ⟨rfl, .nil, hrest⟩
      | some entry => exact ⟨rfl, .nil, hrest⟩
    | cons hfirst hmore => exact ⟨rfl, .cons hfirst hmore, hrest⟩

end Case

/-! ### Blocks -/

namespace Block

theorem read_moved (bindings : Bindings) {stop stop' : Span} (hstop : Place stop stop')
    (owner : String) (state : State) {tokens others : List Token}
    (h : MovedTokens Place tokens others) :
    (read bindings stop owner state tokens).Moved Place
      (read bindings stop' owner state others) := by
  revert others
  fun_induction read bindings stop owner state tokens
  case case1 state =>
    intro others h
    cases h
    rw [read_nil]
    exact ⟨rfl, .nil, .nil⟩
  case case2 state token tokens hends =>
    intro others h
    cases h with
    | cons hfirst hrest =>
      rw [read_of_endsBlock _ _ _ _ _ (hfirst.endsBlock_eq ▸ hends)]
      exact ⟨rfl, .nil, .cons hfirst hrest⟩
  case case3 state token tokens hends step block ih =>
    intro others h
    have hstep : step.Moved Place (Case.read bindings stop' owner state others) :=
      Case.read_moved bindings hstop owner state h
    have hblock := ih hstep.rest
    cases h with
    | cons hfirst hrest =>
      rw [read_of_not_endsBlock _ _ _ _ _ (by simpa [hfirst.endsBlock_eq] using hends)]
      simp only [← hstep.state]
      exact ⟨hblock.state, List.rel_append hstep.diagnostics hblock.diagnostics, hblock.rest⟩

theorem close_moved {stop stop' : Span} (hstop : Place stop stop') {tokens others : List Token}
    (h : MovedTokens Place tokens others) :
    MovedReports Place (close stop tokens).1 (close stop' others).1 ∧
      MovedTokens Place (close stop tokens).2 (close stop' others).2 := by
  cases h with
  | nil => exact ⟨movedReports_single _ rfl hstop, .nil⟩
  | @cons token other tokens others hfirst hrest =>
    rw [close, close, hfirst.kind]
    by_cases hbrace : other.kind = .rightBrace
    · rw [if_pos hbrace, if_pos hbrace]
      exact ⟨.nil, hrest⟩
    · rw [if_neg hbrace, if_neg hbrace]
      exact ⟨movedReports_single _ rfl hfirst.span, .cons hfirst hrest⟩

end Block

/-! ### Definitions -/

/-- What reading some definitions gives in two runs. -/
structure Definition.Moved (Place : Span → Span → Prop) (definition other : Definition) :
    Prop where
  /-- The automata are the same. -/
  automaton : definition.automaton = other.automaton
  /-- The diagnostics correspond. -/
  diagnostics : MovedReports Place definition.diagnostics other.diagnostics
  /-- The tokens that are left correspond. -/
  rest : MovedTokens Place definition.rest other.rest

namespace Definition

variable {tokens others : List Token} {stop stop' : Span}

theorem synchronize_moved (h : MovedTokens Place tokens others) :
    MovedTokens Place (synchronize tokens) (synchronize others) := by
  induction h with
  | nil => exact .nil
  | @cons token other tokens others hfirst hrest ih =>
    rw [synchronize, synchronize, List.dropWhile_cons, List.dropWhile_cons,
      hfirst.startsDefinition_eq]
    by_cases hstarts : (!other.startsDefinition) = true
    · rw [if_pos hstarts, if_pos hstarts]
      exact ih
    · rw [if_neg hstarts, if_neg hstarts]
      exact .cons hfirst hrest

theorem readConstant_moved (hstop : Place stop stop') (automaton : Automaton)
    (h : MovedTokens Place tokens others) :
    (readConstant stop automaton tokens).Moved Place (readConstant stop' automaton others) := by
  obtain ⟨-, hmissing, hrest⟩ := constantShape.read_moved h
  cases hfault : (constantShape.read others).missing with
  | none =>
    rw [hfault] at hmissing
    simp only [readConstant, hmissing, hfault]
    exact ⟨rfl, .nil, hrest⟩
  | some fault =>
    rw [hfault] at hmissing
    simp only [readConstant, hmissing, hfault]
    have hkind := constantShape.ofDefinitions_of_missing (by decide) hfault
    exact ⟨rfl, movedReports_single _ hkind (headSpan_moved hstop hrest), synchronize_moved hrest⟩

theorem readState_moved (bindings : Bindings) (hstop : Place stop stop') (automaton : Automaton)
    (initial : Bool) (h : MovedTokens Place tokens others) :
    (readState bindings stop automaton initial tokens).Moved Place
      (readState bindings stop' automaton initial others) := by
  obtain ⟨hmatched, hmissing, hrest⟩ := headerShape.read_moved h
  cases hfault : (headerShape.read others).missing with
  | none =>
    rw [hfault] at hmissing
    have hname : (headerShape.read tokens).matched[1]?.map Token.value =
        (headerShape.read others).matched[1]?.map Token.value := by
      rcases getElem?_moved hmatched 1 with ⟨hnone, hnone'⟩ | ⟨name, other, hsome, hsome', hmoved⟩
      · rw [hnone, hnone']
      · rw [hsome, hsome']
        exact congrArg some hmoved.value
    simp only [readState, hmissing, hfault, hname]
    have hblock := Block.read_moved bindings hstop
      (((headerShape.read others).matched[1]?.map Token.value).getD "") [] hrest
    obtain ⟨hclosed, hleft⟩ := Block.close_moved hstop hblock.rest
    exact ⟨by rw [hblock.state], List.rel_append hblock.diagnostics hclosed, hleft⟩
  | some fault =>
    rw [hfault] at hmissing
    simp only [readState, hmissing, hfault]
    have hkind := headerShape.ofDefinitions_of_missing (by decide) hfault
    exact ⟨rfl, movedReports_single _ hkind (headSpan_moved hstop hrest), synchronize_moved hrest⟩

theorem readInitial_moved (bindings : Bindings) (hstop : Place stop stop') (automaton : Automaton)
    {mark mark' : Token} (hmark : mark.Moved Place mark') (h : MovedTokens Place tokens others) :
    (readInitial bindings stop automaton mark tokens).Moved Place
      (readInitial bindings stop' automaton mark' others) := by
  rw [readInitial, readInitial]
  by_cases hfirst : (automaton.initial == "") = true
  · rw [if_pos hfirst, if_pos hfirst]
    exact readState_moved bindings hstop automaton true h
  · rw [if_neg hfirst, if_neg hfirst]
    have hstate := readState_moved bindings hstop automaton false h
    exact ⟨hstate.automaton, .cons (.mk rfl hmark.span) hstate.diagnostics, hstate.rest⟩

theorem readAt_moved (bindings : Bindings) (hstop : Place stop stop') (automaton : Automaton)
    {token other : Token} (hfirst : token.Moved Place other)
    (h : MovedTokens Place tokens others) :
    (readAt bindings stop automaton token tokens).Moved Place
      (readAt bindings stop' automaton other others) := by
  unfold readAt
  rw [hfirst.kind]
  split
  · exact readConstant_moved hstop automaton h
  · exact readInitial_moved bindings hstop automaton hfirst h
  · exact readState_moved bindings hstop automaton false (.cons hfirst h)
  · exact ⟨rfl, movedReports_single _ rfl hfirst.span, synchronize_moved h⟩

/-- Tokens that differ in where they stand are read into the same automaton, and what is wrong with
them is the same, at corresponding places. -/
theorem readAll_moved (bindings : Bindings) (hstop : Place stop stop') (automaton : Automaton)
    (h : MovedTokens Place tokens others) :
    (readAll bindings stop automaton tokens).1 = (readAll bindings stop' automaton others).1 ∧
      MovedReports Place (readAll bindings stop automaton tokens).2
        (readAll bindings stop' automaton others).2 := by
  revert others
  fun_induction readAll bindings stop automaton tokens
  case case1 automaton =>
    intro others h
    cases h
    rw [readAll_nil]
    exact ⟨rfl, .nil⟩
  case case2 automaton token tokens definition later ih =>
    intro others h
    cases h with
    | @cons _ other _ others hfirst hrest =>
      have hdefinition : definition.Moved Place (readAt bindings stop' automaton other others) :=
        readAt_moved bindings hstop automaton hfirst hrest
      have hlater := ih hdefinition.rest
      rw [readAll_cons]
      simp only [← hdefinition.automaton]
      exact ⟨hlater.1, List.rel_append hdefinition.diagnostics hlater.2⟩

end Definition

end

/-- The definition pass reports its own faults only. -/
theorem Definition.kind_ne_of_mem_readAll {bindings : Bindings} {stop : Span}
    {automaton : Automaton} {tokens : List Token} {diagnostic : Diagnostic}
    (h : diagnostic ∈ (readAll bindings stop automaton tokens).2) {fault : ParseFault}
    (hfault : fault.ofDefinitions = false) : diagnostic.kind ≠ .parse fault := by
  -- a run is related to itself, whatever is said of places
  have htokens : MovedTokens (fun _ _ => True) tokens tokens :=
    List.forall₂_same.mpr fun _ _ => ⟨rfl, rfl, trivial⟩
  have hreports : MovedReports (fun _ _ => True) (readAll bindings stop automaton tokens).2
      (readAll bindings stop automaton tokens).2 :=
    (readAll_moved bindings trivial automaton htokens).2
  intro hkind
  cases List.forall₂_same.mp hreports diagnostic h with
  | mk hown _ =>
    obtain rfl := Diagnostic.Kind.parse.inj hkind
    rw [hfault] at hown
    cases hown

end TapeMachine
