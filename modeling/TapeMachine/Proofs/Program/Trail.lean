import TapeMachine.Proofs.Program.Origin

/-!
# TapeMachine.Proofs.Program.Trail

The definition pass reports as it goes.

The pass never goes back, and what it reports is about the token it has come to, or about the end of
the tokens. So its diagnostics point at tokens in their order. Names are the only exception on the
face of it: what is wrong with those of a case is found when the whole case was looked at. It is
still reported before the token at which the case breaks off.

* `Diagnostic.PointsAt` — a diagnostic is about the first of some tokens.
* `Diagnostic.Trail` — some diagnostics are about tokens on the way from one place to another, in
  order. Trails are put together by `Diagnostic.Trail.append`.
* `Definition.trail_readAll` — the diagnostics of the pass are such a trail.
* `Definition.ReadsBlock.exists_infix_readAll` — what is reported of a case, and in which order.

A trail says nothing about positions. That tokens of a text stand one behind the other is a matter
of the text.
-/

namespace TapeMachine

/-- The kind of token that a fault speaks of, if it speaks of one. -/
def ParseFault.subject? : ParseFault → Option Token.Kind
  | .nameInUse | .unknownConstant | .unknownState => some .identifier
  | .secondInitialState => some .initial
  | _ => none

namespace Diagnostic

/-- A diagnostic is about the first of some tokens, or about their end if there are none. The value
is then the name that stands there; of a mark too many it is the given initial state. -/
inductive PointsAt (stop : Span) (initial : String) : List Token → Diagnostic → Prop where
  | name {fault : ParseFault} {token : Token} {tokens : List Token} :
      fault.subject? = some .identifier → token.kind = .identifier →
        PointsAt stop initial (token :: tokens) (atSpan fault token.span token.value)
  | mark {token : Token} {tokens : List Token} : token.kind = .initial →
      PointsAt stop initial (token :: tokens) (atSpan .secondInitialState token.span initial)
  | other {fault : ParseFault} {tokens : List Token} {value : String} : fault.subject? = none →
      PointsAt stop initial tokens (atSpan fault (headSpan stop tokens) value)

/-- Some diagnostics are about tokens on the way from some tokens to the rest of them, in order. -/
inductive Trail (stop : Span) (initial : String) :
    List Token → List Diagnostic → List Token → Prop where
  | pass {tokens rest : List Token} : rest <:+ tokens → Trail stop initial tokens [] rest
  | report {tokens here rest : List Token} {diagnostic : Diagnostic}
    {diagnostics : List Diagnostic} : here <:+ tokens → PointsAt stop initial here diagnostic →
      Trail stop initial here diagnostics rest →
        Trail stop initial tokens (diagnostic :: diagnostics) rest

variable {stop : Span} {initial : String} {tokens middle rest : List Token}
  {diagnostics later : List Diagnostic} {diagnostic : Diagnostic}

theorem PointsAt.place_eq (h : PointsAt stop initial tokens diagnostic) :
    diagnostic.place = some (headSpan stop tokens) := by
  cases h <;> rfl

namespace Trail

/-- A trail can start earlier. -/
theorem from_earlier (h : Trail stop initial middle diagnostics rest)
    (hmiddle : middle <:+ tokens) : Trail stop initial tokens diagnostics rest := by
  cases h with
  | pass hrest => exact .pass (hrest.trans hmiddle)
  | report hhere hpoints htrail => exact .report (hhere.trans hmiddle) hpoints htrail

theorem append (h : Trail stop initial tokens diagnostics middle)
    (hlater : Trail stop initial middle later rest) :
    Trail stop initial tokens (diagnostics ++ later) rest := by
  induction h with
  | pass hrest => exact hlater.from_earlier hrest
  | report hhere hpoints _ ih => exact .report hhere hpoints (ih hlater)

/-- A trail can end later. -/
theorem to_later (h : Trail stop initial tokens diagnostics middle) (hrest : rest <:+ middle) :
    Trail stop initial tokens diagnostics rest := by
  rw [← List.append_nil diagnostics]
  exact h.append (.pass hrest)

/-- Diagnostics about one and the same token. -/
theorem of_forall (h : ∀ diagnostic ∈ diagnostics, PointsAt stop initial tokens diagnostic) :
    Trail stop initial tokens diagnostics tokens := by
  induction diagnostics with
  | nil => exact .pass (List.suffix_refl _)
  | cons diagnostic diagnostics ih =>
    obtain ⟨hfirst, hrest⟩ := List.forall_mem_cons.mp h
    exact .report (List.suffix_refl _) hfirst (ih hrest)

/-- Every diagnostic of a trail is about one of its tokens. -/
theorem exists_pointsAt (h : Trail stop initial tokens diagnostics rest)
    (hmem : diagnostic ∈ diagnostics) :
    ∃ here, here <:+ tokens ∧ PointsAt stop initial here diagnostic := by
  induction h with
  | pass => cases hmem
  | report hhere hpoints _ ih =>
    rcases List.mem_cons.mp hmem with rfl | hmem
    · exact ⟨_, hhere, hpoints⟩
    · obtain ⟨there, hthere, hfound⟩ := ih hmem
      exact ⟨there, hthere.trans hhere, hfound⟩

/-- Of two diagnostics, the later one is about the same token or one behind it. -/
theorem pairwise (h : Trail stop initial tokens diagnostics rest) :
    diagnostics.Pairwise fun earlier later => ∃ here there, here <:+ tokens ∧ there <:+ here ∧
      PointsAt stop initial here earlier ∧ PointsAt stop initial there later := by
  induction h with
  | pass => exact .nil
  | @report tokens here rest diagnostic diagnostics hhere hpoints htrail ih =>
    refine List.pairwise_cons.mpr ⟨?_, ih.imp ?_⟩
    · intro later hmem
      obtain ⟨there, hthere, hlater⟩ := htrail.exists_pointsAt hmem
      exact ⟨here, there, hhere, hthere, hpoints, hlater⟩
    · intro earlier later hpair
      obtain ⟨first, second, hfirst, hsecond, hearlier, hlater⟩ := hpair
      exact ⟨first, second, hfirst.trans hhere, hsecond, hearlier, hlater⟩

end Trail

end Diagnostic

open Diagnostic

/-! ### Shapes -/

/-- What is wrong with the shape of some tokens. -/
def Shape.problems (shape : Shape) (stop : Span) (tokens : List Token) : List Diagnostic :=
  (shape.read tokens).missing.toList.map fun fault =>
    atSpan fault (headSpan stop (shape.read tokens).rest) ""

section

variable {stop : Span} {initial : String} {bindings : Bindings}

/-- A shape is reported at the token that did not fit. -/
theorem Shape.trail_problems {shape : Shape}
    (hshape : ∀ slot ∈ shape, slot.missing.subject? = none) (tokens : List Token) :
    Trail stop initial (shape.read tokens).rest (shape.problems stop tokens)
      (shape.read tokens).rest := by
  apply Trail.of_forall
  intro diagnostic hmem
  obtain ⟨fault, hfault, rfl⟩ := List.mem_map.mp hmem
  obtain ⟨slot, hslot, rfl⟩ := exists_slot_of_missing (Option.mem_toList.mp hfault)
  exact .other (hshape slot hslot)

/-! ### Cases -/

namespace Case

/-- A token that stands for no symbol is a name. -/
theorem kind_of_symbol?_none {token : Token} (h : symbol? bindings token = none) :
    token.kind = .identifier := by
  by_cases hkind : token.kind = .identifier
  · exact hkind
  · rw [symbol?, if_neg hkind] at h
    cases h

theorem pointsAt_symbolProblems (token : Token) (tokens : List Token) :
    ∀ diagnostic ∈ symbolProblems bindings token,
      PointsAt stop initial (token :: tokens) diagnostic := by
  intro diagnostic hmem
  rw [symbolProblems] at hmem
  split at hmem
  · next hsymbol =>
    rw [List.mem_singleton.mp hmem]
    exact .name rfl (kind_of_symbol?_none hsymbol)
  · cases hmem

theorem pointsAt_inputProblems (state : State) (token : Token) (tokens : List Token) :
    ∀ diagnostic ∈ inputProblems bindings state token,
      PointsAt stop initial (token :: tokens) diagnostic := by
  intro diagnostic hmem
  rw [inputProblems] at hmem
  split at hmem
  · next hsymbol =>
    rw [List.mem_singleton.mp hmem]
    exact .name rfl (kind_of_symbol?_none hsymbol)
  · split at hmem
    · rw [List.mem_singleton.mp hmem]
      exact .other rfl
    · cases hmem

theorem pointsAt_targetProblems (token : Token) (tokens : List Token) :
    ∀ diagnostic ∈ targetProblems bindings token,
      PointsAt stop initial (token :: tokens) diagnostic := by
  intro diagnostic hmem
  rw [targetProblems] at hmem
  split at hmem
  · next hwrong =>
    rw [List.mem_singleton.mp hmem]
    rw [Bool.and_eq_true, beq_iff_eq] at hwrong
    exact .name rfl hwrong.1
  · cases hmem

/-- What is wrong with the token at an index of what fitted is reported there. -/
theorem trail_getElem? {check : Token → List Diagnostic}
    (hcheck : ∀ token tokens, ∀ diagnostic ∈ check token,
      PointsAt stop initial (token :: tokens) diagnostic)
    (matched rest : List Token) (i : Nat) :
    Trail stop initial (matched.drop i ++ rest) (matched[i]?.toList.flatMap check)
      (matched.drop i ++ rest) := by
  cases hi : matched[i]? with
  | none => exact .pass (List.suffix_refl _)
  | some token =>
    obtain ⟨hlt, rfl⟩ := List.getElem?_eq_some_iff.mp hi
    rw [List.drop_eq_getElem_cons hlt, Option.toList_some, List.flatMap_singleton]
    exact .of_forall (hcheck _ _)

/-- The names of a case are reported in order, whatever is left out of it. -/
theorem trail_problems (bindings : Bindings) (state : State) (matched rest : List Token) :
    Trail stop initial (matched ++ rest) (problems bindings state matched) rest := by
  have hstep : ∀ {i j : Nat}, i ≤ j → matched.drop j ++ rest <:+ matched.drop i ++ rest := by
    intro i j hle
    obtain ⟨passed, hpassed⟩ := List.drop_suffix_drop_left matched hle
    exact ⟨passed, by rw [← List.append_assoc, hpassed]⟩
  have hinput : Trail stop initial (matched ++ rest)
      (matched[0]?.toList.flatMap (inputProblems bindings state)) (matched.drop 2 ++ rest) :=
    (trail_getElem? (pointsAt_inputProblems state) matched rest 0).to_later (hstep (Nat.zero_le 2))
  have houtput : Trail stop initial (matched.drop 2 ++ rest)
      (matched[2]?.toList.flatMap (symbolProblems bindings)) (matched.drop 6 ++ rest) :=
    (trail_getElem? pointsAt_symbolProblems matched rest 2).to_later (hstep (by decide))
  have htarget : Trail stop initial (matched.drop 6 ++ rest)
      (matched[6]?.toList.flatMap (targetProblems bindings)) rest :=
    (trail_getElem? pointsAt_targetProblems matched rest 6).to_later (List.suffix_append _ rest)
  exact (hinput.append houtput).append htarget

/-- A case is reported by its names first and by its shape then. -/
theorem read_diagnostics (bindings : Bindings) (stop : Span) (owner : String) (state : State)
    (tokens : List Token) :
    (read bindings stop owner state tokens).diagnostics =
      problems bindings state (caseShape.read tokens).matched ++
        caseShape.problems stop tokens := by
  cases hmissing : (caseShape.read tokens).missing with
  | some fault => simp [read, Shape.problems, hmissing]
  | none =>
    simp only [read, Shape.problems, hmissing, Option.toList_none, List.map_nil, List.append_nil]
    split
    · next hwrong _ => exact hwrong.symm
    · rfl

theorem trail_read (bindings : Bindings) (owner : String) (state : State) (tokens : List Token) :
    Trail stop initial tokens (read bindings stop owner state tokens).diagnostics
      (read bindings stop owner state tokens).rest := by
  have hnames : Trail stop initial tokens (problems bindings state (caseShape.read tokens).matched)
      (caseShape.read tokens).rest := by
    have hmatched : Trail stop initial
        ((caseShape.read tokens).matched ++ (caseShape.read tokens).rest) _ _ :=
      trail_problems bindings state _ _
    rwa [caseShape.read_append] at hmatched
  rw [read_diagnostics, read_rest]
  refine (hnames.append (Shape.trail_problems (by decide) tokens)).to_later ?_
  split
  · exact skipFault_isSuffix _
  · exact List.suffix_refl _

end Case

/-! ### Blocks -/

namespace Block

theorem trail_read (bindings : Bindings) (owner : String) (state : State) (tokens : List Token) :
    Trail stop initial tokens (read bindings stop owner state tokens).diagnostics
      (read bindings stop owner state tokens).rest := by
  fun_induction read bindings stop owner state tokens with
  | case1 state => exact .pass (List.suffix_refl _)
  | case2 state token tokens _ => exact .pass (List.suffix_refl _)
  | case3 state token tokens _ step block ih =>
    exact (Case.trail_read bindings owner state (token :: tokens)).append ih

theorem trail_close (tokens : List Token) :
    Trail stop initial tokens (close stop tokens).1 (close stop tokens).2 := by
  cases tokens with
  | nil => exact .report (List.suffix_refl _) (.other rfl) (.pass (List.suffix_refl _))
  | cons token tokens =>
    rw [close]
    split
    · exact .pass (List.suffix_cons token tokens)
    · exact .report (List.suffix_refl _) (.other rfl) (.pass (List.suffix_refl _))

/-- What is reported of a case that is tried, in view of the cases before it, is reported of its
block in one piece. -/
theorem exists_infix_read (bindings : Bindings) (stop : Span) (owner : String) (state : State)
    {tokens row : List Token} {earlier later : List (List Token)}
    (h : attempts tokens = earlier ++ row :: later) :
    ∃ found : State, (∀ entry, entry ∈ found ↔
        entry ∈ state ∨ entry.1 ∉ state.names ∧ IsFirst bindings owner earlier entry) ∧
      Case.problems bindings found (caseShape.read row).matched ++
        caseShape.problems stop row <:+: (read bindings stop owner state tokens).diagnostics := by
  revert earlier
  fun_induction read bindings stop owner state tokens
  case case1 state =>
    intro earlier h
    simp [attempts] at h
  case case2 state token tokens hends =>
    intro earlier h
    simp [attempts, hends] at h
  case case3 state token tokens hends step block ih =>
    intro earlier h
    have hrows : attempts (token :: tokens) = (token :: tokens) :: attempts step.rest := by
      rw [attempts, if_neg hends, Case.behind, ← Case.read_rest bindings stop owner state]
    rw [hrows] at h
    cases earlier with
    | nil =>
      obtain ⟨rfl, -⟩ := List.cons.inj h
      refine ⟨state, ?_, ?_⟩
      · intro entry
        simp [not_isFirst_nil]
      · rw [← Case.read_diagnostics bindings stop owner]
        exact (List.prefix_append _ _).isInfix
    | cons first earlier =>
      obtain ⟨rfl, htail⟩ := List.cons.inj h
      obtain ⟨found, hfound, hreported⟩ := ih htail
      refine ⟨found, ?_, hreported.trans (List.suffix_append _ _).isInfix⟩
      intro entry
      rw [hfound]
      exact mem_read_or_isFirst_iff stop state (token :: tokens) earlier

end Block

/-! ### Definitions -/

namespace Definition

variable {automaton : Automaton} {tokens : List Token}

theorem trail_readConstant (automaton : Automaton) (tokens : List Token) :
    Trail stop initial tokens (readConstant stop automaton tokens).diagnostics
      (readConstant stop automaton tokens).rest := by
  have hshape : Trail stop initial tokens (constantShape.problems stop tokens)
      (constantShape.read tokens).rest :=
    (Shape.trail_problems (by decide) tokens).from_earlier (constantShape.read_isSuffix tokens)
  cases hmissing : (constantShape.read tokens).missing with
  | none =>
    simp only [Shape.problems, hmissing] at hshape
    simp only [readConstant, hmissing]
    exact hshape
  | some fault =>
    simp only [Shape.problems, hmissing] at hshape
    simp only [readConstant, hmissing]
    exact hshape.to_later (List.dropWhile_suffix _)

theorem trail_readState (bindings : Bindings) (automaton : Automaton) (marked : Bool)
    (tokens : List Token) :
    Trail stop initial tokens (readState bindings stop automaton marked tokens).diagnostics
      (readState bindings stop automaton marked tokens).rest := by
  have hheader := headerShape.read_isSuffix tokens
  cases hmissing : (headerShape.read tokens).missing with
  | none =>
    simp only [readState, hmissing]
    exact ((Block.trail_read _ _ _ _).append (Block.trail_close _)).from_earlier hheader
  | some fault =>
    have hshape : Trail stop initial tokens (headerShape.problems stop tokens)
        (headerShape.read tokens).rest :=
      (Shape.trail_problems (by decide) tokens).from_earlier hheader
    simp only [Shape.problems, hmissing] at hshape
    simp only [readState, hmissing]
    exact hshape.to_later (List.dropWhile_suffix _)

/-- Where there is an initial state already, the given one is that. -/
theorem trail_readInitial (hinitial : automaton.initial ≠ "" → automaton.initial = initial)
    {mark : Token} (hmark : mark.kind = .initial) (tokens : List Token) :
    Trail stop initial (mark :: tokens)
      (readInitial bindings stop automaton mark tokens).diagnostics
      (readInitial bindings stop automaton mark tokens).rest := by
  have htail := List.suffix_cons mark tokens
  rw [readInitial]
  split
  · exact (trail_readState bindings automaton true tokens).from_earlier htail
  · next hfirst =>
    rw [beq_iff_eq] at hfirst
    rw [hinitial hfirst]
    exact .report (List.suffix_refl _) (.mark hmark)
      ((trail_readState bindings automaton false tokens).from_earlier htail)

theorem trail_readAt (hinitial : automaton.initial ≠ "" → automaton.initial = initial)
    (token : Token) (tokens : List Token) :
    Trail stop initial (token :: tokens) (readAt bindings stop automaton token tokens).diagnostics
      (readAt bindings stop automaton token tokens).rest := by
  have htail := List.suffix_cons token tokens
  unfold readAt
  split
  · exact (trail_readConstant automaton tokens).from_earlier htail
  · next hmark => exact trail_readInitial hinitial hmark tokens
  · exact trail_readState bindings automaton false (token :: tokens)
  · exact .report (List.suffix_refl _) (.other rfl)
      (.pass ((List.dropWhile_suffix _).trans htail))

/-- An initial state stays the initial state. -/
theorem initial_readAt (h : automaton.initial ≠ "") (token : Token) (tokens : List Token) :
    (readAt bindings stop automaton token tokens).automaton.initial = automaton.initial := by
  rcases readAt_cases bindings stop automaton token tokens with
    ⟨marked, name, block, -, hregister⟩ | hsame
  · rw [hregister, beq_eq_false_iff_ne.mpr h, Bool.and_false, register]
    split <;> rfl
  · rw [hsame]

theorem initial_readAll (h : automaton.initial ≠ "") (tokens : List Token) :
    (readAll bindings stop automaton tokens).1.initial = automaton.initial := by
  fun_induction readAll bindings stop automaton tokens with
  | case1 automaton => rfl
  | case2 automaton token tokens definition later ih =>
    have hstep : definition.automaton.initial = automaton.initial := initial_readAt h token tokens
    exact (ih (hstep ▸ h)).trans hstep

/-- The diagnostics of the pass point at tokens in their order, and those on marks speak of the
initial state that is there in the end. -/
theorem trail_readAll (bindings : Bindings) (stop : Span) (automaton : Automaton)
    (tokens : List Token) :
    Trail stop (readAll bindings stop automaton tokens).1.initial tokens
      (readAll bindings stop automaton tokens).2 [] := by
  fun_induction readAll bindings stop automaton tokens with
  | case1 automaton => exact .pass (List.suffix_refl _)
  | case2 automaton token tokens definition later ih =>
    have hkept : automaton.initial ≠ "" → automaton.initial = later.1.initial := by
      intro h
      have hstep : definition.automaton.initial = automaton.initial := initial_readAt h token tokens
      rw [← hstep]
      exact (initial_readAll (hstep ▸ h) definition.rest).symm
    exact (trail_readAt hkept token tokens).append ih

/-! ### What is reported of a case -/

/-- What is reported from some place on is the end of what is reported. -/
theorem Reaches.readAll_isSuffix {reached : Automaton} {rest : List Token}
    (h : Reaches bindings stop automaton tokens reached rest) :
    (readAll bindings stop reached rest).2 <:+ (readAll bindings stop automaton tokens).2 := by
  induction h with
  | start => exact List.suffix_refl _
  | @step reached token rest _ ih =>
    rw [readAll_cons] at ih
    exact (List.suffix_append _ _).trans ih

theorem Opens.readState_isPrefix {name : Token} {block : List Token}
    (h : Opens false name block tokens) (bindings : Bindings) (stop : Span)
    (automaton : Automaton) (marked : Bool) :
    (Block.read bindings stop name.value [] block).diagnostics <+:
      (readState bindings stop automaton marked tokens).diagnostics := by
  cases h with
  | state hkeyword hname hopening =>
    rw [readState_of_header hkeyword hname hopening]
    exact List.prefix_append _ _

/-- Behind a complete head, what is reported of the block is reported. -/
theorem Opens.readAt_isInfix {marked : Bool} {name token : Token} {block rest : List Token}
    (h : Opens marked name block (token :: rest)) (bindings : Bindings) (stop : Span)
    (automaton : Automaton) :
    (Block.read bindings stop name.value [] block).diagnostics <:+:
      (readAt bindings stop automaton token rest).diagnostics := by
  cases h with
  | state hkeyword hname hopening =>
    have hopens : Opens false name block _ := .state hkeyword hname hopening
    simp only [readAt, hkeyword]
    exact (hopens.readState_isPrefix bindings stop automaton false).isInfix
  | initial hmark hopens =>
    simp only [readAt, hmark, readInitial]
    split
    · exact (hopens.readState_isPrefix bindings stop automaton true).isInfix
    · have hstate := hopens.readState_isPrefix bindings stop automaton false
      exact hstate.isInfix.trans (List.suffix_cons _ _).isInfix

/-- Wherever a case is tried, what is wrong with its names is reported, and right behind that what
is wrong with its shape. -/
theorem ReadsBlock.exists_infix_readAll {name : Token} {block row : List Token}
    {earlier later : List (List Token)}
    (h : ReadsBlock bindings stop automaton tokens name block)
    (hrow : Block.attempts block = earlier ++ row :: later) :
    ∃ state : State, (∀ entry, entry ∈ state ↔ Block.IsFirst bindings name.value earlier entry) ∧
      Case.problems bindings state (caseShape.read row).matched ++
        caseShape.problems stop row <:+: (readAll bindings stop automaton tokens).2 := by
  obtain ⟨reached, rest, marked, hreaches, hopens⟩ := h
  obtain ⟨state, hstate, hcase⟩ := Block.exists_infix_read bindings stop name.value [] hrow
  obtain ⟨token, rest, rfl⟩ : ∃ token tail, rest = token :: tail := by
    cases hopens <;> exact ⟨_, _, rfl⟩
  have hlater := hreaches.readAll_isSuffix
  rw [readAll_cons] at hlater
  refine ⟨state, ?_, ?_⟩
  · intro entry
    simp [hstate]
  · have hdefinition := hcase.trans (hopens.readAt_isInfix bindings stop reached)
    exact hdefinition.trans ((List.prefix_append _ _).isInfix.trans hlater.isInfix)

end Definition

end

end TapeMachine
