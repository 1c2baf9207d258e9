import TapeMachine.Proofs.Program.Order
import TapeMachine.Proofs.Program.Sites

/-!
# TapeMachine.Proofs.Program.Layout

Layout does not change what is built of some tokens, nor what is reported.

Two token lists whose bodies agree in kinds and values are read by both passes in the same way, and
where something is reported of the one, the same is reported of the other, at the token with the
same index. Comments, everything behind the end and the faults of error tokens are not in the body,
and spaces only show in where its tokens stand; so none of them can make a difference.

* `Body.places`, `SamePlace` — the places at which something can be reported, by index.
* `Diagnostic.Corresponds` — the same complaint, at tokens with one index.
* `Program.ofTokens_of_content` — what two such token lists have in common.
-/

namespace TapeMachine

/-! ### Places by index -/

/-- The places of the tokens of a body, and behind them that of its end. -/
def Body.places (body : Body) : List Span :=
  body.tokens.map Token.span ++ [body.stop]

/-- Two places have one index, each in its own row. -/
def SamePlace (places others : List Span) (place other : Span) : Prop :=
  ∃ i : Nat, places[i]? = some place ∧ others[i]? = some other

/-- Two diagnostics say the same, and both have no place or both have the place with one index, each
in its own row. -/
structure Diagnostic.Corresponds (places others : List Span) (diagnostic other : Diagnostic) :
    Prop where
  /-- They are of one kind. -/
  kind : diagnostic.kind = other.kind
  /-- They speak of one name or symbol. -/
  value : diagnostic.value = other.value
  /-- Where the one has a place, so has the other, and they have one index. -/
  place : Option.Rel (SamePlace places others) diagnostic.place other.place

theorem Diagnostic.Moved.corresponds {Fault : ParseFault → Prop} {places others : List Span}
    {diagnostic other : Diagnostic}
    (h : diagnostic.Moved Fault (SamePlace places others) other) :
    diagnostic.Corresponds places others other := by
  cases h with
  | mk _ hplace => exact ⟨rfl, rfl, .some hplace⟩

namespace Body

variable {body other : Body}

theorem places_getElem? {i : Nat} (h : i < body.tokens.length) :
    body.places[i]? = some (body.tokens.get ⟨i, h⟩).span := by
  rw [places, List.getElem?_append_left (by simpa using h)]
  simp [h]

/-- Tokens of the same contents have places with the same indices. -/
theorem movedTokens_of_content
    (h : body.tokens.map Token.content = other.tokens.map Token.content) :
    MovedTokens (SamePlace body.places other.places) body.tokens other.tokens := by
  have hlength : body.tokens.length = other.tokens.length := by
    simpa using congrArg List.length h
  refine List.forall₂_iff_get.mpr ⟨hlength, ?_⟩
  intro i hi hi'
  have hcontent : (body.tokens.get ⟨i, hi⟩).content = (other.tokens.get ⟨i, hi'⟩).content := by
    have hget := congrArg (·[i]?) h
    simpa [hi, hi'] using hget
  obtain ⟨hkind, hvalue⟩ := Token.content_eq_iff.mp hcontent
  exact ⟨hkind, hvalue, i, places_getElem? hi, places_getElem? hi'⟩

/-- The ends of such rows have one index, too. -/
theorem samePlace_stop (h : body.tokens.map Token.content = other.tokens.map Token.content) :
    SamePlace body.places other.places body.stop other.stop := by
  have hlength : body.tokens.length = other.tokens.length := by
    simpa using congrArg List.length h
  refine ⟨body.tokens.length, ?_, ?_⟩
  · simp [places]
  · simp [places, hlength]

end Body

/-! ### The declaration pass -/

/-- Two declarations that differ in where the name stands. -/
structure Declaration.Moved (Place : Span → Span → Prop) (declaration other : Declaration) :
    Prop where
  /-- The names are the same. -/
  name : declaration.name.Moved Place other.name
  /-- They stand for the same. -/
  binding : declaration.binding = other.binding

namespace Declaration

variable {Place : Span → Span → Prop} {tokens others : List Token}

/-- A site looks at three tokens, and at their kinds and values only. -/
theorem siteAt?_moved (h : MovedTokens Place tokens others) (i : Nat) :
    Option.Rel (Declaration.Moved Place) (siteAt? tokens i) (siteAt? others i) := by
  simp only [siteAt?, Option.bind_eq_bind]
  rcases getElem?_moved h i with ⟨hnone, hnone'⟩ | ⟨keyword, _, hsome, hsome', hkeyword⟩
  · rw [hnone, hnone']
    exact .none
  rw [hsome, hsome', Option.bind_some, Option.bind_some]
  rcases getElem?_moved h (i + 1) with ⟨hnone, hnone'⟩ | ⟨name, _, hsome, hsome', hname⟩
  · rw [hnone, hnone']
    exact .none
  rw [hsome, hsome', Option.bind_some, Option.bind_some, hname.kind, hkeyword.kind]
  split
  · split
    · exact .some ⟨hname, rfl⟩
    · rcases getElem?_moved h (i + 2) with ⟨hnone, hnone'⟩ | ⟨literal, _, hsome, hsome', hliteral⟩
      · rw [hnone, hnone']
        exact .none
      rw [hsome, hsome', Option.bind_some, Option.bind_some, hliteral.kind, hliteral.value]
      split
      · exact .some ⟨hname, rfl⟩
      · exact .some ⟨hname, rfl⟩
      · exact .none
    · exact .none
  · exact .none

theorem ofTokens_moved (h : MovedTokens Place tokens others) :
    List.Forall₂ (Declaration.Moved Place) (ofTokens tokens) (ofTokens others) := by
  have hindices : List.Forall₂ Eq (List.range others.length) (List.range others.length) :=
    List.forall₂_refl _
  rw [ofTokens_eq_sites, ofTokens_eq_sites, sites, sites, h.length_eq]
  refine List.rel_filterMap ?_ hindices
  rintro i _ rfl
  exact siteAt?_moved h i

variable {declarations copies : List Declaration}

theorem enter_moved {declaration copy : Declaration} (h : declaration.Moved Place copy)
    (taken : Bindings) : enter taken declaration = enter taken copy := by
  rw [enter, enter, h.name.value, h.binding]

theorem bindings_moved (h : List.Forall₂ (Declaration.Moved Place) declarations copies) :
    bindings declarations = bindings copies := by
  refine List.rel_foldl (P := Eq) ?_ rfl h
  rintro taken _ rfl declaration copy hcopy
  exact enter_moved hcopy taken

theorem repeatedFrom_moved (h : List.Forall₂ (Declaration.Moved Place) declarations copies)
    (taken : Bindings) :
    List.Forall₂ (Diagnostic.Moved (· = .nameInUse) Place) (repeatedFrom taken declarations)
      (repeatedFrom taken copies) := by
  induction h generalizing taken with
  | nil => exact .nil
  | @cons declaration copy _ _ hfirst _ ih =>
    have hlater := ih (enter taken copy)
    simp only [repeatedFrom, enter_moved hfirst, hfirst.name.value]
    by_cases hhas : taken.has copy.name.value = true
    · rw [if_pos hhas, if_pos hhas]
      exact .cons (.mk rfl hfirst.name.span) hlater
    · rw [if_neg hhas, if_neg hhas]
      exact hlater

end Declaration

/-! ### Programs -/

namespace Program

/-- Layout is invisible: token lists whose bodies have the same kinds and values are read into the
same automaton and the same names, and what is wrong with the one is wrong with the other, at the
tokens with the same indices. -/
theorem ofTokens_of_content {tokens others : List Token}
    (h : (Body.ofTokens tokens).tokens.map Token.content =
      (Body.ofTokens others).tokens.map Token.content) :
    (ofTokens tokens).automaton = (ofTokens others).automaton ∧
      (ofTokens tokens).bindings = (ofTokens others).bindings ∧
      List.Forall₂
        (Diagnostic.Corresponds (Body.ofTokens tokens).places (Body.ofTokens others).places)
        (ofTokens tokens).diagnostics (ofTokens others).diagnostics := by
  have htokens := Body.movedTokens_of_content h
  have hstop := Body.samePlace_stop h
  have hdeclarations := Declaration.ofTokens_moved htokens
  have hbindings := Declaration.bindings_moved hdeclarations
  obtain ⟨hautomaton, hreports⟩ := Definition.readAll_moved
    (Declaration.bindings (Declaration.ofTokens (Body.ofTokens others).tokens)) hstop
    Automaton.empty htokens
  simp only [ofTokens, hbindings, hautomaton, true_and]
  refine List.rel_append (List.rel_append ?_ ?_) ?_
  · exact (Declaration.repeatedFrom_moved hdeclarations []).imp fun _ _ h => h.corresponds
  · exact hreports.imp fun _ _ h => h.corresponds
  · -- the program as a whole has no place
    rw [initialProblems]
    split
    · exact .cons ⟨rfl, rfl, .none⟩ .nil
    · exact .nil

/-- A constant without its literal, a state without its brace, and a stretch of text that is no
token between them. -/
def shards : List (Token.Kind × String) :=
  [(.define, ""), (.identifier, "x"), (.error, ""), (.state, ""), (.identifier, "s"),
    (.leftBrace, ""), (.character, "a"), (.slash, "")]

/-- Set apart by a comment and cut off by an end, or by themselves, the shards are the same. -/
theorem ofTokens_of_content_shards :
    let cut := tokensAt 3 (shards.take 4) ++ tokensAt 9 [(.comment, "")] ++
      tokensAt 12 (shards.drop 4) ++ Token.ending 20 :: tokensAt 20 finisher
    let bare := tokensAt 0 shards
    (Body.ofTokens cut).tokens.map Token.content = (Body.ofTokens bare).tokens.map Token.content ∧
      (ofTokens cut).automaton = (ofTokens bare).automaton ∧
      (ofTokens cut).bindings = (ofTokens bare).bindings ∧
      List.Forall₂ (Diagnostic.Corresponds (Body.ofTokens cut).places (Body.ofTokens bare).places)
        (ofTokens cut).diagnostics (ofTokens bare).diagnostics := by
  intro cut bare
  have hcontent : (Body.ofTokens cut).tokens.map Token.content =
      (Body.ofTokens bare).tokens.map Token.content := by
    decide
  exact ⟨hcontent, ofTokens_of_content hcontent⟩

end Program

end TapeMachine
