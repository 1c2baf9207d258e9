import TapeMachine.Proofs.Program.Layout

/-!
# TapeMachine.Proofs.Program.Recovery

The definition pass recovers at every token that starts a definition.

Whatever stands in front of such a token, the pass comes to it without having read it: inside a
definition the token fits nowhere and ends every stretch that is skipped, so it acts there as the end
of the tokens would (`Definition.readAt_append`). The one exception is a mark of an initial state in
front of the keyword `state`, which is read on as one definition. So the tokens in front are read as
if they stood alone, and the rest as if it started there.

* `Definition.readAll_append` — the pass over tokens in front of a definition and over the rest.
* `Definition.ofTokens_recovers` — the same for token lists with their own ends.
-/

namespace TapeMachine

/-! ### The next definition acts as an end -/

/-- A token that fits no place which the tokens in front of it may leave open ends the reading of a
shape. -/
theorem Shape.read_append_of_rejected {shape : Shape} {tokens : List Token} {first : Token}
    (h : ∀ slot ∈ shape.drop tokens.length, slot.accepts first.kind = false) (more : List Token) :
    shape.read (tokens ++ first :: more) =
      { shape.read tokens with rest := (shape.read tokens).rest ++ first :: more } := by
  induction shape generalizing tokens with
  | nil => rfl
  | cons slot slots ih =>
    cases tokens with
    | nil => simp [read, h slot List.mem_cons_self]
    | cons token tokens =>
      rw [List.cons_append]
      by_cases haccepts : slot.accepts token.kind = true
      · rw [read, read, if_pos haccepts, if_pos haccepts, ih h]
      · rw [read, read, if_neg haccepts, if_neg haccepts]
        rfl

section

variable {first : Token} (hfirst : first.startsDefinition = true) (more : List Token)

include hfirst

theorem kind_of_startsDefinition : first.kind ∈ [.define, .initial, .state] := by
  unfold Token.startsDefinition Token.Kind.startsDefinition at hfirst
  split at hfirst <;> simp_all

theorem endsBlock_of_startsDefinition : Case.endsBlock first = true := by
  rw [Case.endsBlock, hfirst, Bool.or_true]

theorem Shape.read_append_of_startsDefinition (shape : Shape)
    (hshape : ∀ kind ∈ [Token.Kind.define, .initial, .state], ∀ slot ∈ shape,
      slot.accepts kind = false) (tokens : List Token) :
    shape.read (tokens ++ first :: more) =
      { shape.read tokens with rest := (shape.read tokens).rest ++ first :: more } := by
  apply read_append_of_rejected
  intro slot hslot
  exact hshape _ (kind_of_startsDefinition hfirst) slot (List.mem_of_mem_drop hslot)

omit hfirst in
theorem headSpan_append (stop : Span) (tokens : List Token) :
    headSpan stop (tokens ++ first :: more) = headSpan first.span tokens := by
  cases tokens <;> rfl

namespace Case

theorem skipFault_append (tokens : List Token) :
    skipFault (tokens ++ first :: more) = skipFault tokens ++ first :: more := by
  cases tokens with
  | nil => simp [skipFault, endsBlock_of_startsDefinition hfirst]
  | cons token tokens =>
    rw [List.cons_append, skipFault, skipFault]
    by_cases hends : endsBlock token = true
    · rw [if_pos hends, if_pos hends, List.cons_append]
    · rw [if_neg hends, if_neg hends]

theorem read_append (bindings : Bindings) (stop : Span) (owner : String) (state : State)
    (tokens : List Token) :
    read bindings stop owner state (tokens ++ first :: more) =
      let step := read bindings first.span owner state tokens
      { step with rest := step.rest ++ first :: more } := by
  have hread := caseShape.read_append_of_startsDefinition hfirst more (by decide) tokens
  simp only [read, hread, headSpan_append, skipFault_append hfirst]
  cases (caseShape.read tokens).missing with
  | some fault => rfl
  | none =>
    cases problems bindings state (caseShape.read tokens).matched with
    | nil =>
      cases ofTokens? bindings owner (caseShape.read tokens).matched with
      | none => rfl
      | some entry => rfl
    | cons problem problems => rfl

end Case

namespace Block

theorem read_append (bindings : Bindings) (stop : Span) (owner : String) (state : State)
    (tokens : List Token) :
    read bindings stop owner state (tokens ++ first :: more) =
      let block := read bindings first.span owner state tokens
      { block with rest := block.rest ++ first :: more } := by
  fun_induction read bindings first.span owner state tokens with
  | case1 state =>
    exact read_of_endsBlock _ _ _ _ _ (endsBlock_of_startsDefinition hfirst)
  | case2 state token tokens hends =>
    rw [List.cons_append, read_of_endsBlock _ _ _ _ _ hends]
    rfl
  | case3 state token tokens hends step block ih =>
    have hstep := Case.read_append hfirst more bindings stop owner state (token :: tokens)
    rw [List.cons_append] at hstep ⊢
    rw [read_of_not_endsBlock _ _ _ _ _ (by simpa using hends), hstep]
    simp only [step, ih]
    rfl

theorem close_append (stop : Span) (tokens : List Token) :
    close stop (tokens ++ first :: more) =
      ((close first.span tokens).1, (close first.span tokens).2 ++ first :: more) := by
  cases tokens with
  | nil =>
    have hbrace : first.kind ≠ .rightBrace := by
      intro hkind
      have hmem := kind_of_startsDefinition hfirst
      simp [hkind] at hmem
    simp [close, hbrace]
  | cons token tokens =>
    rw [List.cons_append, close, close]
    by_cases hbrace : token.kind = .rightBrace
    · rw [if_pos hbrace, if_pos hbrace]
    · rw [if_neg hbrace, if_neg hbrace, List.cons_append]

end Block

namespace Definition

variable (bindings : Bindings) (stop : Span) (automaton : Automaton)

theorem synchronize_append (tokens : List Token) :
    synchronize (tokens ++ first :: more) = synchronize tokens ++ first :: more := by
  induction tokens with
  | nil => simp [synchronize, hfirst]
  | cons token tokens ih =>
    rw [synchronize] at ih ⊢
    rw [List.cons_append, List.dropWhile_cons, synchronize, List.dropWhile_cons]
    by_cases hstarts : (!token.startsDefinition) = true
    · rw [if_pos hstarts, if_pos hstarts, ih, synchronize]
    · rw [if_neg hstarts, if_neg hstarts, List.cons_append]

theorem readConstant_append (tokens : List Token) :
    readConstant stop automaton (tokens ++ first :: more) =
      let definition := readConstant first.span automaton tokens
      { definition with rest := definition.rest ++ first :: more } := by
  have hread := constantShape.read_append_of_startsDefinition hfirst more (by decide) tokens
  simp only [readConstant, hread, headSpan_append, synchronize_append hfirst]
  cases (constantShape.read tokens).missing with
  | none => rfl
  | some fault => rfl

/-- The keyword of a state may be what a head starts with; behind the first token of a head it fits
nowhere. -/
theorem headerShape_read_append {tokens : List Token} (h : tokens ≠ [] ∨ first.kind ≠ .state) :
    headerShape.read (tokens ++ first :: more) =
      { headerShape.read tokens with rest := (headerShape.read tokens).rest ++ first :: more } := by
  have hkind := kind_of_startsDefinition hfirst
  apply Shape.read_append_of_rejected
  cases tokens with
  | nil =>
    have hshape : ∀ kind ∈ [Token.Kind.define, .initial], ∀ slot ∈ headerShape,
        slot.accepts kind = false := by
      decide
    refine hshape _ ?_
    simpa [h.resolve_left (not_not_intro rfl)] using hkind
  | cons token tokens =>
    have hshape : ∀ kind ∈ [Token.Kind.define, .initial, .state], ∀ slot ∈ headerShape.tail,
        slot.accepts kind = false := by
      decide
    exact fun slot hslot => hshape _ hkind slot (List.mem_of_mem_drop hslot)

theorem readState_append (initial : Bool) {tokens : List Token}
    (h : tokens ≠ [] ∨ first.kind ≠ .state) :
    readState bindings stop automaton initial (tokens ++ first :: more) =
      let definition := readState bindings first.span automaton initial tokens
      { definition with rest := definition.rest ++ first :: more } := by
  have hread := headerShape_read_append hfirst more h
  simp only [readState, hread, headSpan_append, synchronize_append hfirst,
    Block.read_append hfirst, Block.close_append hfirst]
  cases (headerShape.read tokens).missing with
  | none => rfl
  | some fault => rfl

theorem readInitial_append (mark : Token) {tokens : List Token}
    (h : tokens ≠ [] ∨ first.kind ≠ .state) :
    readInitial bindings stop automaton mark (tokens ++ first :: more) =
      let definition := readInitial bindings first.span automaton mark tokens
      { definition with rest := definition.rest ++ first :: more } := by
  rw [readInitial, readInitial, readState_append hfirst more bindings stop automaton true h,
    readState_append hfirst more bindings stop automaton false h]
  by_cases hinitial : (automaton.initial == "") = true
  · rw [if_pos hinitial, if_pos hinitial]
  · rw [if_neg hinitial, if_neg hinitial]

/-- A step in front of a definition is the step at an end, and leaves the definition. -/
theorem readAt_append {token : Token} {tokens : List Token}
    (h : token.kind = .initial → tokens ≠ [] ∨ first.kind ≠ .state) :
    readAt bindings stop automaton token (tokens ++ first :: more) =
      let definition := readAt bindings first.span automaton token tokens
      { definition with rest := definition.rest ++ first :: more } := by
  unfold readAt
  split
  · exact readConstant_append hfirst more stop automaton tokens
  · next hkind => exact readInitial_append hfirst more bindings stop automaton token (h hkind)
  · exact readState_append hfirst more bindings stop automaton false
      (.inl (List.cons_ne_nil token tokens))
  · rw [synchronize_append hfirst]

/-- The tokens in front of a definition are read as if they ended there, and the rest as if it
started there. -/
theorem readAll_append {tokens : List Token}
    (h : first.kind = .state → ∀ last ∈ tokens.getLast?, last.kind ≠ .initial) :
    readAll bindings stop automaton (tokens ++ first :: more) =
      let before := readAll bindings first.span automaton tokens
      let after := readAll bindings stop before.1 (first :: more)
      (after.1, before.2 ++ after.2) := by
  fun_induction readAll bindings first.span automaton tokens with
  | case1 automaton => rfl
  | case2 automaton token tokens definition later ih =>
    have hstep : token.kind = .initial → tokens ≠ [] ∨ first.kind ≠ .state := by
      intro hinitial
      by_cases hempty : tokens = []
      · refine .inr fun hstate => ?_
        subst hempty
        exact h hstate token rfl hinitial
      · exact .inl hempty
    have hrest : first.kind = .state → ∀ last ∈ definition.rest.getLast?,
        last.kind ≠ .initial := by
      intro hstate last hlast
      -- what is left ends as what was given does
      obtain ⟨taken, htaken⟩ := readAt_isSuffix bindings first.span automaton token tokens
      refine h hstate last ?_
      rw [← htaken, List.getLast?_append, Option.mem_def.mp hlast]
      rfl
    rw [List.cons_append, readAll_cons, readAt_append hfirst more bindings stop automaton hstep]
    show (let later := readAll bindings stop definition.automaton (definition.rest ++ first :: more)
      (later.1, definition.diagnostics ++ later.2)) = _
    rw [ih hrest]
    simp only [later, List.append_assoc]

end Definition

end

/-! ### Token lists with their own ends -/

namespace Body

/-- Tokens without an end in front of others do not change where these end. -/
theorem stopOf_append {tokens : List Token} (h : ∀ token ∈ tokens, token.kind ≠ .endOfText)
    (first : Token) (more : List Token) :
    stopOf (tokens ++ first :: more) = stopOf (first :: more) := by
  have hnone : tokens.find? (·.kind == .endOfText) = none := by simpa using h
  have hlast : (tokens ++ first :: more).getLast? = (first :: more).getLast? := by
    simp [List.getLast?_append, List.getLast?_cons]
  rw [stopOf, stopOf, List.find?_append, hnone, Option.none_or, hlast]

/-- The body of tokens in front of others, of which the first is no comment. -/
theorem ofTokens_append {tokens more : List Token} {first : Token}
    (htokens : ∀ token ∈ tokens, token.kind ≠ .comment ∧ token.kind ≠ .endOfText)
    (hfirst : first.kind ≠ .comment) :
    ofTokens (tokens ++ first :: more) =
      { tokens := tokens ++ (ofTokens (first :: more)).tokens
        stop := (ofTokens (first :: more)).stop } := by
  have hvisible : tokens.filter (·.kind != .comment) = tokens := by
    rw [List.filter_eq_self]
    intro token htoken
    simpa using (htokens token htoken).1
  have hgoing : ∀ token ∈ tokens, (token.kind != .endOfText) = true := by
    intro token htoken
    simpa using (htokens token htoken).2
  have hrest : (first :: more).filter (·.kind != .comment) =
      first :: more.filter (·.kind != .comment) :=
    List.filter_cons_of_pos (by simpa using hfirst)
  simp only [ofTokens, List.filter_append, hvisible, hrest, List.takeWhile_append_of_pos hgoing,
    stopOf_append fun token htoken => (htokens token htoken).2]

/-- Tokens that an ending token follows are their own body. -/
theorem ofTokens_ending {tokens : List Token} {ending : Token}
    (htokens : ∀ token ∈ tokens, token.kind ≠ .comment ∧ token.kind ≠ .endOfText)
    (hending : ending.kind = .endOfText) :
    ofTokens (tokens ++ [ending]) = ⟨tokens, ending.span⟩ := by
  rw [ofTokens_append htokens (by simp [hending])]
  simp [ofTokens, stopOf, hending]

/-- A body starts with the first token, if that is one of it. -/
theorem exists_tokens_eq_cons {first : Token} (hcomment : first.kind ≠ .comment)
    (hending : first.kind ≠ .endOfText) (more : List Token) :
    ∃ rest, (ofTokens (first :: more)).tokens = first :: rest :=
  ⟨(more.filter (·.kind != .comment)).takeWhile (·.kind != .endOfText), by
    simp [ofTokens, hcomment, hending]⟩

end Body

namespace Definition

/-- The definition pass over a token list, with a given table of names and an automaton to start
from. -/
def ofTokens (bindings : Bindings) (automaton : Automaton) (tokens : List Token) :
    Automaton × List Diagnostic :=
  readAll bindings (Body.ofTokens tokens).stop automaton (Body.ofTokens tokens).tokens

/-- A program is what the pass makes of its tokens, with the table of their declarations. -/
example (tokens : List Token) : (Program.ofTokens tokens).automaton =
    (ofTokens (Program.ofTokens tokens).bindings Automaton.empty tokens).1 := rfl

/-- The pass recovers at a token that starts a definition: whatever stands in front of it, the
automaton is that of the definition and all behind it, read into the automaton of what stands in
front; and the diagnostics are those of both, where what is reported of the part in front at its end
is reported at the token. Only a mark of an initial state must not be cut off from its keyword. -/
theorem ofTokens_recovers (bindings : Bindings) (automaton : Automaton)
    {broken more : List Token} {first ending : Token}
    (hbroken : ∀ token ∈ broken, token.kind ≠ .comment ∧ token.kind ≠ .endOfText)
    (hfirst : first.startsDefinition = true) (hending : ending.kind = .endOfText)
    (hcut : first.kind = .state → ∀ last ∈ broken.getLast?, last.kind ≠ .initial) :
    let alone := ofTokens bindings automaton (broken ++ [ending])
    let later := ofTokens bindings alone.1 (first :: more)
    let whole := ofTokens bindings automaton (broken ++ first :: more)
    whole.1 = later.1 ∧ ∃ reports, whole.2 = reports ++ later.2 ∧
      List.Forall₂ (Diagnostic.Corresponds (Body.places ⟨broken, ending.span⟩)
        (Body.places ⟨broken, first.span⟩)) alone.2 reports := by
  intro alone later whole
  have hkind := kind_of_startsDefinition hfirst
  have hcomment : first.kind ≠ .comment := by
    intro h
    simp [h] at hkind
  have hgoing : first.kind ≠ .endOfText := by
    intro h
    simp [h] at hkind
  obtain ⟨rest, hrest⟩ := Body.exists_tokens_eq_cons hcomment hgoing more
  -- in front of the definition, the end may as well stand where the definition starts
  have hcontent : (Body.mk broken ending.span).tokens.map Token.content =
      (Body.mk broken first.span).tokens.map Token.content := rfl
  obtain ⟨hautomaton, hreports⟩ := readAll_moved bindings (Body.samePlace_stop hcontent) automaton
    (Body.movedTokens_of_content hcontent)
  have halone : alone = readAll bindings ending.span automaton broken := by
    simp only [alone, ofTokens, Body.ofTokens_ending hbroken hending]
  have hwhole : whole = (later.1, (readAll bindings first.span automaton broken).2 ++ later.2) := by
    simp only [whole, later, ofTokens, Body.ofTokens_append hbroken hcomment, hrest,
      readAll_append hfirst rest bindings _ automaton hcut, halone, hautomaton]
  rw [hwhole, halone]
  exact ⟨rfl, _, rfl, hreports.imp fun _ _ h => h.corresponds⟩

/-- A case that breaks off in front of a marked state, in a block without its brace: alone it is
reported on at its end, and there at the mark. -/
theorem ofTokens_recovers_shards :
    let broken := Program.tokensAt 0 (Program.shards.drop 3)
    let alone := ofTokens Program.starterNames Automaton.empty (broken ++ [Token.ending 5])
    let later := ofTokens Program.starterNames alone.1 (Program.tokensAt 7 Program.starter)
    let whole := ofTokens Program.starterNames Automaton.empty
      (broken ++ Program.tokensAt 7 Program.starter)
    alone.2.map (·.place) = [some ⟨5, 0⟩, some ⟨5, 0⟩] ∧
      whole.1 = later.1 ∧ ∃ reports, whole.2 = reports ++ later.2 ∧
        List.Forall₂ (Diagnostic.Corresponds (Body.places ⟨broken, ⟨5, 0⟩⟩)
          (Body.places ⟨broken, ⟨7, 1⟩⟩)) alone.2 reports := by
  intro broken alone later whole
  have hplaces : alone.2.map (·.place) = [some ⟨5, 0⟩, some ⟨5, 0⟩] := by decide +kernel
  exact ⟨hplaces, ofTokens_recovers Program.starterNames Automaton.empty (by decide) (by decide)
    (by decide) (by decide)⟩

end Definition

end TapeMachine
