import TapeMachine.Proofs.Program.Reading

/-!
# TapeMachine.Proofs.Program.Course

The course of the definition pass over tokens that may hold any mistakes.

The pass goes from one definition to the next: at each step it holds an automaton and the tokens it
has not read. `Definition.Reaches` are the pairs it comes by; the last of them is its result
(`Definition.reaches_readAll`), so what every step keeps holds of the automaton that is built.

* `Definition.Opens` — the tokens start with the complete head of a block.
* `Definition.readAt_cases` — all that a step can do to the automaton: the block behind a complete
  head is registered, and without such a head nothing changes.
* `Definition.Reaches.isSuffix` — the pass never goes back.
-/

namespace TapeMachine

/-! ### What is left is an end of what was given -/

theorem Shape.read_isSuffix (shape : Shape) (tokens : List Token) :
    (shape.read tokens).rest <:+ tokens :=
  ⟨_, shape.read_append tokens⟩

theorem Case.skipFault_isSuffix (tokens : List Token) : skipFault tokens <:+ tokens := by
  cases tokens with
  | nil => exact List.suffix_refl _
  | cons token tokens =>
    rw [skipFault]
    split
    · exact List.suffix_refl _
    · exact List.suffix_cons token tokens

theorem Case.read_isSuffix (bindings : Bindings) (stop : Span) (owner : String) (state : State)
    (tokens : List Token) : (read bindings stop owner state tokens).rest <:+ tokens := by
  rw [read_rest]
  split
  · exact (skipFault_isSuffix _).trans (caseShape.read_isSuffix tokens)
  · exact caseShape.read_isSuffix tokens

theorem Block.read_isSuffix (bindings : Bindings) (stop : Span) (owner : String) (state : State)
    (tokens : List Token) : (read bindings stop owner state tokens).rest <:+ tokens := by
  fun_induction read bindings stop owner state tokens with
  | case1 state => exact List.suffix_refl _
  | case2 state token tokens _ => exact List.suffix_refl _
  | case3 state token tokens _ step block ih =>
    exact ih.trans (Case.read_isSuffix bindings stop owner state (token :: tokens))

theorem Block.close_isSuffix (stop : Span) (tokens : List Token) :
    (close stop tokens).2 <:+ tokens := by
  cases tokens with
  | nil => exact List.suffix_refl _
  | cons token tokens =>
    rw [close]
    split
    · exact List.suffix_cons token tokens
    · exact List.suffix_refl _

namespace Definition

variable {bindings : Bindings} {stop : Span} {automaton : Automaton}

theorem readConstant_isSuffix (stop : Span) (automaton : Automaton) (tokens : List Token) :
    (readConstant stop automaton tokens).rest <:+ tokens := by
  have hread := constantShape.read_isSuffix tokens
  simp only [readConstant]
  split
  · exact hread
  · exact (List.dropWhile_suffix _).trans hread

theorem readState_isSuffix (bindings : Bindings) (stop : Span) (automaton : Automaton)
    (initial : Bool) (tokens : List Token) :
    (readState bindings stop automaton initial tokens).rest <:+ tokens := by
  have hread := headerShape.read_isSuffix tokens
  simp only [readState]
  split
  · exact (Block.close_isSuffix _ _).trans ((Block.read_isSuffix _ _ _ _ _).trans hread)
  · exact (List.dropWhile_suffix _).trans hread

theorem readAt_isSuffix (bindings : Bindings) (stop : Span) (automaton : Automaton) (token : Token)
    (tokens : List Token) :
    (readAt bindings stop automaton token tokens).rest <:+ token :: tokens := by
  have htail := List.suffix_cons token tokens
  unfold readAt
  split
  · exact (readConstant_isSuffix stop automaton tokens).trans htail
  · unfold readInitial
    split
    · exact (readState_isSuffix bindings stop automaton true tokens).trans htail
    · exact (readState_isSuffix bindings stop automaton false tokens).trans htail
  · exact readState_isSuffix bindings stop automaton false (token :: tokens)
  · exact (List.dropWhile_suffix _).trans htail

/-! ### Steps -/

/-- The tokens start with the head of a block: the keyword, the name and the opening brace, behind
the mark of an initial state or without it. -/
inductive Opens : Bool → Token → List Token → List Token → Prop where
  | state {keyword name opening : Token} {block : List Token} :
      keyword.kind = .state → name.kind = .identifier → opening.kind = .leftBrace →
        Opens false name block (keyword :: name :: opening :: block)
  | initial {mark name : Token} {block tokens : List Token} :
      mark.kind = .initial → Opens false name block tokens → Opens true name block (mark :: tokens)

/-- Behind a complete head the block is registered, and otherwise nothing is. -/
theorem readState_cases (bindings : Bindings) (stop : Span) (automaton : Automaton)
    (initial : Bool) (tokens : List Token) :
    (∃ name block, Opens false name block tokens ∧
      (readState bindings stop automaton initial tokens).automaton =
        register bindings automaton initial name.value
          (Block.read bindings stop name.value [] block).state) ∨
    (readState bindings stop automaton initial tokens).automaton = automaton := by
  cases hmissing : (headerShape.read tokens).missing with
  | none =>
    obtain ⟨keyword, name, opening, block, rfl, hkeyword, hname, hopening⟩ :=
      exists_header_of_read hmissing
    refine .inl ⟨name, block, .state hkeyword hname hopening, ?_⟩
    rw [readState_of_header hkeyword hname hopening]
  | some fault =>
    refine .inr ?_
    simp only [readState, hmissing]

/-- A step registers the block that its tokens open, or leaves the automaton as it is. A block is
marked as the initial one only if none was before. -/
theorem readAt_cases (bindings : Bindings) (stop : Span) (automaton : Automaton) (token : Token)
    (tokens : List Token) :
    (∃ marked name block, Opens marked name block (token :: tokens) ∧
      (readAt bindings stop automaton token tokens).automaton =
        register bindings automaton (marked && automaton.initial == "") name.value
          (Block.read bindings stop name.value [] block).state) ∨
    (readAt bindings stop automaton token tokens).automaton = automaton := by
  unfold readAt
  split
  · refine .inr ?_
    simp only [readConstant]
    split <;> rfl
  · next hmark =>
    by_cases hfirst : (automaton.initial == "") = true
    · rw [readInitial, if_pos hfirst, hfirst]
      rcases readState_cases bindings stop automaton true tokens with
        ⟨name, block, hopens, hstate⟩ | hsame
      · exact .inl ⟨true, name, block, .initial hmark hopens, hstate⟩
      · exact .inr hsame
    · rw [readInitial, if_neg hfirst]
      rw [Bool.not_eq_true] at hfirst
      rw [hfirst]
      rcases readState_cases bindings stop automaton false tokens with
        ⟨name, block, hopens, hstate⟩ | hsame
      · exact .inl ⟨true, name, block, .initial hmark hopens, hstate⟩
      · exact .inr hsame
  · rcases readState_cases bindings stop automaton false (token :: tokens) with
      ⟨name, block, hopens, hstate⟩ | hsame
    · exact .inl ⟨false, name, block, hopens, hstate⟩
    · exact .inr hsame
  · exact .inr rfl

/-! ### Runs -/

/-- The automata and the tokens that the pass comes by, from where it starts. -/
inductive Reaches (bindings : Bindings) (stop : Span) (automaton : Automaton)
    (tokens : List Token) : Automaton → List Token → Prop where
  | start : Reaches bindings stop automaton tokens automaton tokens
  | step {reached : Automaton} {token : Token} {rest : List Token} :
      Reaches bindings stop automaton tokens reached (token :: rest) →
        Reaches bindings stop automaton tokens (readAt bindings stop reached token rest).automaton
          (readAt bindings stop reached token rest).rest

variable {tokens rest : List Token} {reached : Automaton}

/-- The pass comes to an end, with its result. -/
theorem reaches_readAll (bindings : Bindings) (stop : Span) (automaton : Automaton)
    (tokens : List Token) :
    Reaches bindings stop automaton tokens (readAll bindings stop automaton tokens).1 [] := by
  have hend : ∀ {reached : Automaton} {rest : List Token},
      Reaches bindings stop automaton tokens reached rest →
        Reaches bindings stop automaton tokens (readAll bindings stop reached rest).1 [] := by
    intro reached rest
    fun_induction readAll bindings stop reached rest with
    | case1 reached => exact id
    | case2 reached token rest definition later ih => exact fun h => ih h.step
  exact hend .start

theorem Reaches.isSuffix (h : Reaches bindings stop automaton tokens reached rest) :
    rest <:+ tokens := by
  induction h with
  | start => exact List.suffix_refl _
  | step _ ih => exact (readAt_isSuffix _ _ _ _ _).trans ih

/-- The pass reads the block behind a head with the given name. -/
def ReadsBlock (bindings : Bindings) (stop : Span) (automaton : Automaton) (tokens : List Token)
    (name : Token) (block : List Token) : Prop :=
  ∃ reached rest marked, Reaches bindings stop automaton tokens reached rest ∧
    Opens marked name block rest

/-- A block that is read stands among the tokens, behind its head. -/
theorem ReadsBlock.exists_head {name : Token} {block : List Token}
    (h : ReadsBlock bindings stop automaton tokens name block) :
    ∃ before keyword opening, tokens = before ++ keyword :: name :: opening :: block ∧
      keyword.kind = .state ∧ name.kind = .identifier ∧ opening.kind = .leftBrace := by
  obtain ⟨reached, rest, marked, hreaches, hopens⟩ := h
  obtain ⟨before, rfl⟩ := hreaches.isSuffix
  cases hopens with
  | state hkeyword hname hopening =>
    exact ⟨before, _, _, rfl, hkeyword, hname, hopening⟩
  | @initial mark _ _ _ _ hstate =>
    cases hstate with
    | state hkeyword hname hopening =>
      exact ⟨before ++ [mark], _, _, by simp, hkeyword, hname, hopening⟩

end Definition

end TapeMachine
