import Mathlib.Logic.Relation
import TapeMachine.Proofs.Program.Trail

/-!
# TapeMachine.Proofs.Program.Progress

The passes over the tokens go forward and come to an end, whatever the tokens are.

A pass goes along a row of tokens with a cursor. Each advance takes the token at the cursor and
moves it on by one, but not past an ending token. So the tokens from the cursor up to the first
ending token are all that a pass can still come to, and the passes are told by these: an advance
takes the first of them.

There are three loops: that of the declaration pass, that of the definition pass, and inside the
latter one along the cases of each block. A `Loop` gives one iteration of such a loop and the tokens
it leaves.

* `Body.row` — the tokens that the passes go along. They have an ending token, and the body is what
  stands before the first of these (`Body.exists_row_eq`).
* `Body.advance?` — one advance of the cursor, which fails behind the row.
* `Body.Points` — the cursor against the tokens that are left; `Body.Points.advance` is the lemma on
  a single advance, `Body.Points.moves` the one on several.
* `Loop.Progresses` — every iteration takes tokens, from the front.
* `Loop.Progresses.advances` — from this alone, what a whole run of a loop does to the cursor.
* `Declaration.progresses_loop`, `Definition.progresses_loop`, `Block.progresses_loop` — the three
  loops do so, each by its own argument. That these are the loops of the passes is said by
  `Declaration.ofTokens_of_runs`, `Definition.readAll_of_runs` and `Block.read_of_runs`.
* `Program.ofTokens_progresses` — the facts together. A case that breaks off is a fault on its way
  out (`Reading.missing`): the loop along the cases catches it where the cursor is, and goes on.
-/

namespace TapeMachine

/-! ### The first ending token -/

namespace Body

/-- The tokens that the passes go along: those that are no comments, and behind them an ending one
if the last is none. -/
def row (tokens : List Token) : List Token :=
  let visible := tokens.filter (·.kind != .comment)
  if visible.getLast?.map Token.kind = some .endOfText then visible
  else
    visible ++
      [{ kind := .endOfText
         value := ""
         span :=
          { position := visible.getLast?.elim 0 fun last => last.span.position + last.span.length
            length := 0 }
         fault := none }]

theorem kind_ne_endOfText {tokens : List Token} {token : Token}
    (h : token ∈ (ofTokens tokens).tokens) : token.kind ≠ .endOfText := by
  simpa using List.all_eq_true.mp List.all_takeWhile token h

/-- The body ends at the first ending token. -/
theorem exists_row_eq (tokens : List Token) :
    ∃ ending more, row tokens = (ofTokens tokens).tokens ++ ending :: more ∧
      ending.kind = .endOfText ∧ ending.span = (ofTokens tokens).stop := by
  have hsplit : (ofTokens tokens).tokens ++
      (tokens.filter (·.kind != .comment)).dropWhile (·.kind != .endOfText) =
        tokens.filter (·.kind != .comment) := List.takeWhile_append_dropWhile
  cases hrest : (tokens.filter (·.kind != .comment)).dropWhile (·.kind != .endOfText) with
  | cons ending more =>
    have hkind : ending.kind = .endOfText := by
      have hhead := List.head?_dropWhile_not (·.kind != .endOfText)
        (tokens.filter (·.kind != .comment))
      simpa [hrest] using hhead
    rw [hrest] at hsplit
    have hstop : ending.span = (ofTokens tokens).stop := by
      have hfind : (tokens.filter (·.kind != .comment)).find? (·.kind == .endOfText) =
          some ending := by
        rw [← hsplit, List.find?_append, List.find?_eq_none.mpr, Option.none_or,
          List.find?_cons_of_pos (by simp [hkind])]
        intro token hmem
        simpa using kind_ne_endOfText hmem
      simp only [ofTokens, stopOf, hfind]
    rw [row, ← hsplit]
    split
    · exact ⟨ending, more, rfl, hkind, hstop⟩
    · exact ⟨ending, _, List.append_assoc _ (ending :: more) _, hkind, hstop⟩
  | nil =>
    rw [hrest, List.append_nil] at hsplit
    -- no token is an ending one, so one is put behind them
    have hlast : (tokens.filter (·.kind != .comment)).getLast?.map Token.kind ≠
        some .endOfText := by
      intro hkind
      obtain ⟨last, hlast, hkind⟩ := Option.map_eq_some_iff.mp hkind
      rw [← hsplit] at hlast
      exact kind_ne_endOfText (List.mem_of_getLast? hlast) hkind
    have hfind : (tokens.filter (·.kind != .comment)).find? (·.kind == .endOfText) = none := by
      rw [List.find?_eq_none, ← hsplit]
      intro token hmem
      simpa using kind_ne_endOfText hmem
    rw [row, if_neg hlast, ← hsplit]
    refine ⟨_, [], rfl, rfl, ?_⟩
    simp only [ofTokens, stopOf, hfind] at hsplit ⊢
    rw [hsplit]
    cases (tokens.filter (·.kind != .comment)).getLast? <;> rfl

/-! ### The cursor -/

/-- One advance along a row, from an index: the token there, and the index after it. An ending token
is not passed. -/
def advance? (row : List Token) (index : Nat) : Option (Token × Nat) :=
  row[index]?.map fun token => (token, if token.kind = .endOfText then index else index + 1)

/-- An advance takes one index to another. -/
def Moves (row : List Token) (index next : Nat) : Prop :=
  ∃ token, advance? row index = some (token, next)

/-- The index of the first ending token of a row. -/
def firstEnd (row : List Token) : Nat :=
  row.findIdx (·.kind == .endOfText)

/-- An index of a row stands for the tokens from there up to the first ending token. -/
def Points (row : List Token) (index : Nat) (rest : List Token) : Prop :=
  ∃ before ending more, row = before ++ (rest ++ ending :: more) ∧ before.length = index ∧
    ending.kind = .endOfText ∧ ∀ token ∈ before ++ rest, token.kind ≠ .endOfText

/-- At first all of the body is left. -/
theorem points_row (tokens : List Token) : Points (row tokens) 0 (ofTokens tokens).tokens := by
  obtain ⟨ending, more, hrow, hkind, -⟩ := exists_row_eq tokens
  exact ⟨[], ending, more, hrow, rfl, hkind, fun _ => kind_ne_endOfText⟩

namespace Points

variable {row rest later : List Token} {index : Nat}

theorem lt_length (h : Points row index rest) : index < row.length := by
  obtain ⟨before, ending, more, rfl, rfl, -, -⟩ := h
  simp only [List.length_append, List.length_cons]
  omega

/-- The tokens that are left are those before the first ending token. -/
theorem index_add_length (h : Points row index rest) : index + rest.length = firstEnd row := by
  obtain ⟨before, ending, more, rfl, rfl, hkind, hclean⟩ := h
  have hfind : (before ++ rest).findIdx (·.kind == .endOfText) = (before ++ rest).length :=
    List.findIdx_eq_length_of_false fun token hmem => by simpa using hclean token hmem
  rw [firstEnd, ← List.append_assoc, List.findIdx_append, hfind, if_neg (Nat.lt_irrefl _),
    List.findIdx_cons, hkind, List.length_append]
  exact (Nat.zero_add _).symm

/-- An advance takes the first token that is left. Where none is, it stays at the ending token. -/
theorem advance (h : Points row index rest) :
    ∃ token next, advance? row index = some (token, next) ∧ Points row next rest.tail ∧
      (rest.head? = some token ∧ next = index + 1 ∨
        rest = [] ∧ token.kind = .endOfText ∧ next = index) := by
  obtain ⟨before, ending, more, rfl, rfl, hkind, hclean⟩ := h
  cases rest with
  | nil =>
    refine ⟨ending, before.length, ?_, ⟨before, ending, more, rfl, rfl, hkind, hclean⟩,
      .inr ⟨rfl, hkind, rfl⟩⟩
    simp [advance?, hkind]
  | cons token later =>
    have hgoes : token.kind ≠ .endOfText := hclean token (by simp)
    refine ⟨token, before.length + 1, ?_, ?_, .inl ⟨rfl, rfl⟩⟩
    · simp [advance?, hgoes]
    · exact ⟨before ++ [token], ending, more, by simp, by simp, hkind, by simpa using hclean⟩

/-- Single advances take the index past any tokens that are left. -/
theorem moves {passed : List Token} (h : Points row index (passed ++ rest)) :
    Points row (index + passed.length) rest ∧
      Relation.ReflTransGen (Moves row) index (index + passed.length) := by
  induction passed generalizing index with
  | nil => exact ⟨h, .refl⟩
  | cons token passed ih =>
    obtain ⟨taken, next, htaken, hnext, ⟨-, rfl⟩ | ⟨hnone, -, -⟩⟩ := h.advance
    · obtain ⟨hpoints, hmoves⟩ := ih hnext
      rw [Nat.add_assoc, Nat.add_comm 1] at hpoints hmoves
      exact ⟨hpoints, .head ⟨taken, htaken⟩ hmoves⟩
    · cases hnone

/-- What is left later tells where the index is then. -/
theorem of_isSuffix (h : Points row index rest) (hlater : later <:+ rest) :
    Points row (firstEnd row - later.length) later ∧
      Relation.ReflTransGen (Moves row) index (firstEnd row - later.length) := by
  obtain ⟨passed, rfl⟩ := hlater
  have hindex : index + passed.length = firstEnd row - later.length := by
    rw [← h.index_add_length, List.length_append]
    omega
  rw [← hindex]
  exact h.moves

end Points

end Body

/-! ### Loops -/

/-- A loop that goes along tokens. -/
structure Loop (σ : Type) where
  /-- One iteration; `none` where the loop is left. -/
  next? : σ → Option σ
  /-- The tokens that are left. -/
  rest : σ → List Token

namespace Loop

variable {σ : Type} {loop : Loop σ} {row : List Token} {start state : σ} {index n : Nat}

/-- What a loop comes to after a number of iterations. -/
inductive Runs (loop : Loop σ) (start : σ) : Nat → σ → Prop where
  | start : Runs loop start 0 start
  | step {n : Nat} {state next : σ} : Runs loop start n state → loop.next? state = some next →
      Runs loop start (n + 1) next

/-- The index in a row at which a loop is: what it leaves goes from there to the first ending
token. -/
def cursor (loop : Loop σ) (row : List Token) (state : σ) : Nat :=
  Body.firstEnd row - (loop.rest state).length

/-- Every iteration takes some tokens, from the front. -/
def Progresses (loop : Loop σ) : Prop :=
  ∀ state next, loop.next? state = some next →
    loop.rest next <:+ loop.rest state ∧ (loop.rest next).length < (loop.rest state).length

/-- What a loop does to its cursor, along a row and from where it starts. -/
structure Advances (loop : Loop σ) (row : List Token) (start : σ) : Prop where
  /-- The cursor is an index of the row, not past the first ending token, and the tokens from it up
  to there are left. -/
  valid : ∀ n state, loop.Runs start n state →
    loop.cursor row state < row.length ∧ loop.cursor row state ≤ Body.firstEnd row ∧
      Body.Points row (loop.cursor row state) (loop.rest state)
  /-- Every iteration moves it forward, by single advances. -/
  forward : ∀ n state next, loop.Runs start n state → loop.next? state = some next →
    loop.cursor row state < loop.cursor row next ∧
      Relation.ReflTransGen (Body.Moves row) (loop.cursor row state) (loop.cursor row next)
  /-- There are no more iterations than tokens before the first ending one. -/
  bounded : ∀ n state, loop.Runs start n state → n ≤ Body.firstEnd row
  /-- The loop is left. -/
  ends : ∃ n state, loop.Runs start n state ∧ loop.next? state = none

/-- What is left after some iterations is an end of what was left before, shorter by one token for
each of them at least. -/
theorem Progresses.rest_of_runs (h : loop.Progresses) (hruns : loop.Runs start n state) :
    loop.rest state <:+ loop.rest start ∧
      n + (loop.rest state).length ≤ (loop.rest start).length := by
  induction hruns with
  | start => exact ⟨List.suffix_refl _, by omega⟩
  | step _ hnext ih =>
    obtain ⟨hsuffix, hlt⟩ := h _ _ hnext
    exact ⟨hsuffix.trans ih.1, by omega⟩

theorem Progresses.exists_end (h : loop.Progresses) (start : σ) :
    ∃ n state, loop.Runs start n state ∧ loop.next? state = none := by
  have hend : ∀ count n state, (loop.rest state).length = count → loop.Runs start n state →
      ∃ n state, loop.Runs start n state ∧ loop.next? state = none := by
    intro count
    induction count using Nat.strong_induction_on with
    | _ count ih =>
      intro n state hcount hruns
      cases hnext : loop.next? state with
      | none => exact ⟨n, state, hruns, hnext⟩
      | some next =>
        obtain ⟨-, hlt⟩ := h _ _ hnext
        exact ih _ (hcount ▸ hlt) (n + 1) next rfl (hruns.step hnext)
  exact hend _ 0 start rfl .start

/-- A loop whose iterations take tokens goes forward along a row, wherever it starts. -/
theorem Progresses.advances (h : loop.Progresses)
    (hstart : Body.Points row index (loop.rest start)) : loop.Advances row start := by
  have htotal := hstart.index_add_length
  have hpoints : ∀ n state, loop.Runs start n state →
      Body.Points row (loop.cursor row state) (loop.rest state) :=
    fun n state hruns => (hstart.of_isSuffix (h.rest_of_runs hruns).1).1
  refine ⟨?_, ?_, ?_, h.exists_end start⟩
  · intro n state hruns
    exact ⟨(hpoints n state hruns).lt_length, Nat.sub_le _ _, hpoints n state hruns⟩
  · intro n state next hruns hnext
    obtain ⟨hsuffix, hlt⟩ := h _ _ hnext
    have hrest := (h.rest_of_runs hruns).2
    refine ⟨?_, ((hpoints n state hruns).of_isSuffix hsuffix).2⟩
    simp only [cursor]
    omega
  · intro n state hruns
    have hrest := (h.rest_of_runs hruns).2
    omega

end Loop

/-! ### The loop of the declaration pass -/

namespace Declaration

variable {tokens : List Token} {n : Nat} {state : List Declaration × List Token}

/-- The walk along the declarations, as a loop over those found so far and the tokens left. -/
def loop : Loop (List Declaration × List Token) where
  next? state :=
    match state.2 with
    | [] => none
    | token :: tokens =>
      some (state.1 ++ (readAt token tokens).1.toList, (readAt token tokens).2)
  rest state := state.2

/-- A declaration that breaks off at the token it starts with takes that token, too. -/
theorem progresses_loop : loop.Progresses := by
  intro state next hnext
  obtain ⟨found, _ | ⟨token, tokens⟩⟩ := state
  · cases hnext
  · obtain rfl := Option.some.inj hnext
    exact ⟨(readAt_isSuffix token tokens).trans (List.suffix_cons token tokens),
      Nat.lt_succ_of_le (readAt_length_le token tokens)⟩

/-- The declarations found so far and those among the tokens left are all of them. -/
theorem ofTokens_of_runs (h : loop.Runs ([], tokens) n state) :
    ofTokens tokens = state.1 ++ ofTokens state.2 := by
  induction h with
  | start => rfl
  | @step n state next _ hnext ih =>
    obtain ⟨found, _ | ⟨token, rest⟩⟩ := state
    · cases hnext
    · obtain rfl := Option.some.inj hnext
      rw [ih, ofTokens_cons, List.append_assoc]

/-- Where the loop is left, all declarations are found. -/
theorem ofTokens_of_end (h : loop.Runs ([], tokens) n state) (hend : loop.next? state = none) :
    ofTokens tokens = state.1 := by
  obtain ⟨found, _ | ⟨token, rest⟩⟩ := state
  · simpa using ofTokens_of_runs h
  · cases hend

end Declaration

/-! ### The loop along the cases of a block -/

/-- Seven tokens that make a case have its symbol and its replacement among them. -/
theorem Case.exists_symbols_of_ofTokens? {bindings : Bindings} {owner : String}
    {matched : List Token} {entry : String × Case}
    (h : ofTokens? bindings owner matched = some entry) :
    ∃ input output, matched[0]? = some input ∧ matched[2]? = some output ∧
      symbol? bindings input = some entry.1 ∧
      symbol? bindings output = some entry.2.replacement := by
  unfold ofTokens? at h
  split at h
  · next input _ output _ _ _ _ =>
    obtain ⟨symbol, hsymbol, h⟩ := Option.bind_eq_some_iff.mp h
    obtain ⟨replacement, hreplacement, h⟩ := Option.bind_eq_some_iff.mp h
    obtain rfl := Option.some.inj h
    exact ⟨input, output, rfl, rfl, hsymbol, hreplacement⟩
  · cases h

namespace Block

variable {bindings : Bindings} {stop : Span} {owner : String} {cases : State}
  {tokens : List Token} {n : Nat} {block next : Block}

/-- Reading the cases of a block of the state `owner`, as a loop over the cases read so far, what
was wrong with them, and the tokens left. -/
def loop (bindings : Bindings) (stop : Span) (owner : String) : Loop Block where
  next? block :=
    match block.rest with
    | [] => none
    | token :: tokens =>
      if Case.endsBlock token then none
      else
        let step := Case.read bindings stop owner block.state (token :: tokens)
        some { step with diagnostics := block.diagnostics ++ step.diagnostics }
  rest block := block.rest

/-- An iteration reads one case, at a token that does not end the block. -/
theorem exists_of_next? (h : (loop bindings stop owner).next? block = some next) :
    ∃ token tokens, block.rest = token :: tokens ∧ Case.endsBlock token = false ∧
      next =
        { Case.read bindings stop owner block.state block.rest with
          diagnostics := block.diagnostics ++
            (Case.read bindings stop owner block.state block.rest).diagnostics } := by
  obtain ⟨state, diagnostics, _ | ⟨token, tokens⟩⟩ := block
  · cases h
  · simp only [loop, Option.ite_none_left_eq_some, Option.some.injEq] at h
    exact ⟨token, tokens, rfl, by simpa using h.1, h.2.symm⟩

/-- A case that breaks off at its first token takes that token, since it does not end the block. -/
theorem progresses_loop (bindings : Bindings) (stop : Span) (owner : String) :
    (loop bindings stop owner).Progresses := by
  intro block next hnext
  obtain ⟨token, tokens, hrest, hends, rfl⟩ := exists_of_next? hnext
  refine ⟨Case.read_isSuffix bindings stop owner block.state block.rest, ?_⟩
  show (Case.read bindings stop owner block.state block.rest).rest.length < block.rest.length
  rw [hrest]
  exact Case.read_rest_length_lt bindings stop owner block.state tokens hends

/-- Going on from where some iterations have come to gives what reading all of the block gives. -/
theorem read_of_runs
    (h : (loop bindings stop owner).Runs { state := cases, diagnostics := [], rest := tokens } n
      block) :
    read bindings stop owner cases tokens =
      { read bindings stop owner block.state block.rest with
        diagnostics := block.diagnostics ++
          (read bindings stop owner block.state block.rest).diagnostics } := by
  induction h with
  | start => rfl
  | @step n block next _ hnext ih =>
    obtain ⟨token, rest, hrest, hends, rfl⟩ := exists_of_next? hnext
    rw [ih]
    simp only [hrest, read_of_not_endsBlock _ _ _ _ _ hends, List.append_assoc]

/-- Where the loop is left, the block is read. -/
theorem read_of_end
    (h : (loop bindings stop owner).Runs { state := cases, diagnostics := [], rest := tokens } n
      block)
    (hend : (loop bindings stop owner).next? block = none) :
    read bindings stop owner cases tokens = block := by
  rw [read_of_runs h]
  obtain ⟨state, diagnostics, _ | ⟨token, rest⟩⟩ := block
  · simp [read_nil]
  · have hends : Case.endsBlock token = true := by
      by_contra hgoes
      simp [loop, hgoes] at hend
    simp [read_of_endsBlock _ _ _ _ _ hends]

/-- A case that breaks off is caught by the loop: the fault is reported behind what is wrong with
the names of the case, at the token at which it broke off, and the loop goes on from there. -/
theorem next?_of_missing (h : (loop bindings stop owner).next? block = some next)
    {fault : ParseFault} (hmissing : (caseShape.read block.rest).missing = some fault) :
    next.state = block.state ∧
      next.diagnostics = block.diagnostics ++
        (Case.problems bindings block.state (caseShape.read block.rest).matched ++
          [Diagnostic.atSpan fault (headSpan stop (caseShape.read block.rest).rest) ""]) ∧
      next.rest <:+ (caseShape.read block.rest).rest ∧
      (caseShape.read block.rest).rest <:+ block.rest := by
  obtain ⟨token, tokens, -, -, rfl⟩ := exists_of_next? h
  refine ⟨by simp [Case.read, hmissing], by simp [Case.read, hmissing], ?_,
    Shape.read_isSuffix caseShape block.rest⟩
  simp only [Case.read_rest, hmissing, Option.isSome_some, if_true]
  exact Case.skipFault_isSuffix _

/-- A case that is complete and whose names are all right has a symbol and a replacement, and is
entered with them. -/
theorem exists_symbols_of_next? (h : (loop bindings stop owner).next? block = some next)
    (hmissing : (caseShape.read block.rest).missing = none)
    (hproblems : Case.problems bindings block.state (caseShape.read block.rest).matched = []) :
    ∃ input output symbol case,
      (caseShape.read block.rest).matched[0]? = some input ∧
      (caseShape.read block.rest).matched[2]? = some output ∧
      Case.symbol? bindings input = some symbol ∧
      Case.symbol? bindings output = some case.replacement ∧
      next.state = block.state.add symbol case := by
  obtain ⟨token, tokens, -, -, rfl⟩ := exists_of_next? h
  obtain ⟨line, hline⟩ := Grammar.Line.exists_derives (Shape.fits_of_read hmissing)
  obtain ⟨result, hresult⟩ :=
    (hline.problems_eq_nil_iff bindings owner block.state).mp hproblems
  obtain ⟨entry, hentry, -, -⟩ := Grammar.Line.enter?_eq_some_iff.mp hresult
  have hcase := hline.ofTokens?_eq hentry
  obtain ⟨input, output, hinput, houtput, hsymbol, hreplacement⟩ :=
    Case.exists_symbols_of_ofTokens? hcase
  refine ⟨input, output, entry.1, entry.2, hinput, houtput, hsymbol, hreplacement, ?_⟩
  simp only [Case.read, hmissing, hproblems, hcase]

end Block

/-! ### The loop of the definition pass -/

namespace Definition

variable {bindings : Bindings} {stop : Span} {automaton : Automaton} {tokens : List Token}
  {n : Nat} {definition next : Definition}

/-- Reading the definitions, as a loop over the automaton built so far, what was wrong, and the
tokens left. -/
def loop (bindings : Bindings) (stop : Span) : Loop Definition where
  next? definition :=
    match definition.rest with
    | [] => none
    | token :: tokens =>
      let step := readAt bindings stop definition.automaton token tokens
      some { step with diagnostics := definition.diagnostics ++ step.diagnostics }
  rest definition := definition.rest

/-- Whatever a definition breaks off at, the token it starts with is taken. -/
theorem progresses_loop (bindings : Bindings) (stop : Span) : (loop bindings stop).Progresses := by
  intro definition next hnext
  obtain ⟨automaton, diagnostics, _ | ⟨token, tokens⟩⟩ := definition
  · cases hnext
  · obtain rfl := Option.some.inj hnext
    exact ⟨readAt_isSuffix bindings stop automaton token tokens,
      Nat.lt_succ_of_le (readAt_length_le bindings stop automaton token tokens)⟩

/-- Going on from where some iterations have come to gives what reading all definitions gives. -/
theorem readAll_of_runs
    (h : (loop bindings stop).Runs { automaton, diagnostics := [], rest := tokens } n
      definition) :
    readAll bindings stop automaton tokens =
      ((readAll bindings stop definition.automaton definition.rest).1,
        definition.diagnostics ++
          (readAll bindings stop definition.automaton definition.rest).2) := by
  induction h with
  | start => rfl
  | @step n definition next _ hnext ih =>
    obtain ⟨reached, diagnostics, _ | ⟨token, rest⟩⟩ := definition
    · cases hnext
    · obtain rfl := Option.some.inj hnext
      rw [ih, readAll_cons]
      simp only [List.append_assoc]

/-- Where the loop is left, all definitions are read. -/
theorem readAll_of_end
    (h : (loop bindings stop).Runs { automaton, diagnostics := [], rest := tokens } n definition)
    (hend : (loop bindings stop).next? definition = none) :
    readAll bindings stop automaton tokens = (definition.automaton, definition.diagnostics) := by
  obtain ⟨reached, diagnostics, _ | ⟨token, rest⟩⟩ := definition
  · simpa using readAll_of_runs h
  · cases hend

theorem Opens.isSuffix {marked : Bool} {name : Token} {block : List Token}
    (h : Opens marked name block tokens) : block <:+ tokens := by
  induction h with
  | @state keyword name opening block => exact List.suffix_append [keyword, name, opening] block
  | initial _ _ ih => exact ih.trans (List.suffix_cons _ _)

/-- Behind a complete head, an iteration reads the block and closes it. -/
theorem rest_next?_of_opens {marked : Bool} {name : Token} {block : List Token}
    (h : Opens marked name block definition.rest)
    (hnext : (loop bindings stop).next? definition = some next) :
    next.rest = (Block.close stop (Block.read bindings stop name.value [] block).rest).2 := by
  obtain ⟨reached, diagnostics, rest⟩ := definition
  cases h with
  | state hkeyword hname hopening =>
    obtain rfl := Option.some.inj hnext
    simp only [readAt, hkeyword, readState_of_header hkeyword hname hopening]
  | initial hmark hopens =>
    cases hopens with
    | state hkeyword hname hopening =>
      obtain rfl := Option.some.inj hnext
      simp only [readAt, hmark, readInitial, readState_of_header hkeyword hname hopening]
      split <;> rfl

/-- The loop along the cases of a block goes on within one iteration of the other loop. -/
theorem between_of_runs {marked : Bool} {name : Token} {start : List Token} {block : Block}
    (h : Opens marked name start definition.rest)
    (hnext : (loop bindings stop).next? definition = some next)
    (hruns : (Block.loop bindings stop name.value).Runs
      { state := [], diagnostics := [], rest := start } n block) :
    next.rest <:+ block.rest ∧ block.rest <:+ definition.rest := by
  refine ⟨?_, ((Block.progresses_loop _ _ _).rest_of_runs hruns).1.trans h.isSuffix⟩
  rw [rest_next?_of_opens h hnext, Block.read_of_runs hruns]
  exact (Block.close_isSuffix _ _).trans (Block.read_isSuffix _ _ _ _ _)

end Definition

/-! ### Programs -/

namespace Program

/-- The passes over some tokens go forward, end, and lose nothing on their way. -/
structure Progresses (tokens : List Token) (body : Body) (program : Program) : Prop where
  /-- The body is what stands before the first ending token, of which there is one, and ends where
  this token is. -/
  stop : ∃ ending more, Body.row tokens = body.tokens ++ ending :: more ∧
    ending.kind = .endOfText ∧ ending.span = body.stop ∧
    ∀ token ∈ body.tokens, token.kind ≠ .endOfText
  /-- Wherever the cursor is, an advance does not fail: it takes the first token that is left, or
  stays at the ending one. -/
  cursor : ∀ index rest, Body.Points (Body.row tokens) index rest →
    ∃ token next, Body.advance? (Body.row tokens) index = some (token, next) ∧
      Body.Points (Body.row tokens) next rest.tail ∧
      (rest.head? = some token ∧ next = index + 1 ∨
        rest = [] ∧ token.kind = .endOfText ∧ next = index)
  /-- The declaration pass goes forward. -/
  declarations : Declaration.loop.Advances (Body.row tokens) ([], body.tokens)
  /-- What it has found in the end makes the table of names. -/
  declared : ∀ n state, Declaration.loop.Runs ([], body.tokens) n state →
    Declaration.loop.next? state = none → program.bindings = Declaration.bindings state.1
  /-- The definition pass goes forward. -/
  definitions : (Definition.loop program.bindings body.stop).Advances (Body.row tokens)
    { automaton := Automaton.empty, diagnostics := [], rest := body.tokens }
  /-- What it has built in the end is the automaton, and what it has reported is reported. -/
  defined : ∀ n definition, (Definition.loop program.bindings body.stop).Runs
      { automaton := Automaton.empty, diagnostics := [], rest := body.tokens } n definition →
    (Definition.loop program.bindings body.stop).next? definition = none →
      program.automaton = definition.automaton ∧
      program.diagnostics = Declaration.repeated (Declaration.ofTokens body.tokens) ++
        definition.diagnostics ++ initialProblems definition.automaton
  /-- Along the cases of each block that it comes to, it goes forward, too, and does not fall
  behind on leaving the block. -/
  blocks : ∀ n definition next marked name block,
    (Definition.loop program.bindings body.stop).Runs
      { automaton := Automaton.empty, diagnostics := [], rest := body.tokens } n definition →
    Definition.Opens marked name block definition.rest →
    (Definition.loop program.bindings body.stop).next? definition = some next →
      (Block.loop program.bindings body.stop name.value).Advances (Body.row tokens)
        { state := [], diagnostics := [], rest := block } ∧
      ∀ m reached, (Block.loop program.bindings body.stop name.value).Runs
          { state := [], diagnostics := [], rest := block } m reached →
        next.rest <:+ reached.rest ∧ reached.rest <:+ definition.rest ∧
        ((Block.loop program.bindings body.stop name.value).next? reached = none →
          Block.read program.bindings body.stop name.value [] block = reached)
  /-- A case that breaks off is caught where it does so, and reported. -/
  caught : ∀ owner block next fault,
    (Block.loop program.bindings body.stop owner).next? block = some next →
    (caseShape.read block.rest).missing = some fault →
      next.state = block.state ∧
      next.diagnostics = block.diagnostics ++
        (Case.problems program.bindings block.state (caseShape.read block.rest).matched ++
          [Diagnostic.atSpan fault (headSpan body.stop (caseShape.read block.rest).rest) ""]) ∧
      next.rest <:+ (caseShape.read block.rest).rest ∧
      (caseShape.read block.rest).rest <:+ block.rest
  /-- A case that does not, and has names that are all right, has a symbol and a replacement. -/
  present : ∀ owner block next,
    (Block.loop program.bindings body.stop owner).next? block = some next →
    (caseShape.read block.rest).missing = none →
    Case.problems program.bindings block.state (caseShape.read block.rest).matched = [] →
      ∃ input output symbol case,
        (caseShape.read block.rest).matched[0]? = some input ∧
        (caseShape.read block.rest).matched[2]? = some output ∧
        Case.symbol? program.bindings input = some symbol ∧
        Case.symbol? program.bindings output = some case.replacement ∧
        next.state = block.state.add symbol case

/-- Whatever the tokens are, both passes over them go forward and end. -/
theorem ofTokens_progresses (tokens : List Token) :
    Progresses tokens (Body.ofTokens tokens) (ofTokens tokens) where
  stop := by
    obtain ⟨ending, more, hrow, hkind, hspan⟩ := Body.exists_row_eq tokens
    exact ⟨ending, more, hrow, hkind, hspan, fun token => Body.kind_ne_endOfText⟩
  cursor := fun index rest hpoints => hpoints.advance
  declarations := Declaration.progresses_loop.advances (Body.points_row tokens)
  declared := by
    intro n state hruns hend
    rw [← Declaration.ofTokens_of_end hruns hend]
    rfl
  definitions := (Definition.progresses_loop _ _).advances (Body.points_row tokens)
  defined := by
    intro n definition hruns hend
    have hall := Definition.readAll_of_end hruns hend
    have hautomaton : (ofTokens tokens).automaton = definition.automaton := congrArg Prod.fst hall
    have hdiagnostics : (Definition.readAll (ofTokens tokens).bindings (Body.ofTokens tokens).stop
        Automaton.empty (Body.ofTokens tokens).tokens).2 = definition.diagnostics :=
      congrArg Prod.snd hall
    refine ⟨hautomaton, ?_⟩
    rw [← hautomaton, ← hdiagnostics]
    rfl
  blocks := by
    intro n definition next marked name block hruns hopens hnext
    have hrest := ((Definition.progresses_loop _ _).rest_of_runs hruns).1
    have hpoints := ((Body.points_row tokens).of_isSuffix (hopens.isSuffix.trans hrest)).1
    refine ⟨(Block.progresses_loop _ _ _).advances hpoints, ?_⟩
    intro m reached hreached
    obtain ⟨hbehind, hwithin⟩ := Definition.between_of_runs hopens hnext hreached
    exact ⟨hbehind, hwithin, Block.read_of_end hreached⟩
  caught := fun owner block next fault hnext hmissing => Block.next?_of_missing hnext hmissing
  present := fun owner block next hnext hmissing hproblems =>
    Block.exists_symbols_of_next? hnext hmissing hproblems

end Program

end TapeMachine
