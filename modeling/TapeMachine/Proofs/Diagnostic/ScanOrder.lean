import TapeMachine.Proofs.Program.Recovery
import TapeMachine.Proofs.Program.Trail
import TapeMachine.Proofs.Token.Coverage

/-!
# TapeMachine.Proofs.Diagnostic.ScanOrder

Diagnostics come in the order of the text, and point at what they speak of.

The tokens of a text without lexical faults stand in it one behind the other (`Body.InText`). The
declaration pass reports names at their own tokens, from left to right, and the diagnostics of the
definition pass are a trail along the same tokens. So the order of tokens becomes one of positions,
and the span of a token selects its own spelling.

* `Diagnostic.Ordered`, `Diagnostic.Located` — what is said of two diagnostics and of one.
* `Program.ScanOrder` — how the diagnostics of a program are put together.
-/

namespace TapeMachine

/-- Two diagnostics have places, and their positions are related. -/
def Diagnostic.Ordered (Order : Int → Int → Prop) (earlier later : Diagnostic) : Prop :=
  ∃ first second, earlier.place = some first ∧ later.place = some second ∧
    Order first.position second.position

/-- A diagnostic of a program with the given initial state points at what it speaks of. -/
structure Diagnostic.Located (source : Text) (initial : String) (diagnostic : Diagnostic)
    (span : Span) : Prop where
  /-- It points there. -/
  place : diagnostic.place = some span
  /-- The span lies in the text. -/
  inside : 0 ≤ span.position ∧ 0 ≤ span.length ∧ span.position + span.length ≤ source.length
  /-- A name it speaks of stands there. -/
  name : diagnostic.kind ∈ [.parse .nameInUse, .parse .unknownConstant, .parse .unknownState] →
    diagnostic.value.toList = span.cut source
  /-- A mark too many stands there, and the value is the state that has it. -/
  mark : diagnostic.kind = .parse .secondInitialState →
    span.cut source = "initial".toList ∧ diagnostic.value = initial

/-- How the diagnostics of a program in a text are put together: those on names, those on
definitions and the one on the program as a whole. -/
structure Program.ScanOrder (source : Text) (body : Body) (program : Program)
    (names definitions whole : List Diagnostic) : Prop where
  /-- There are no others. -/
  diagnostics_eq : program.diagnostics = names ++ definitions ++ whole
  /-- The first ones are all those on names in use, -/
  names_eq : program.diagnostics.filter (·.kind == .parse .nameInUse) = names
  /-- one behind the other. -/
  names_ordered : names.Pairwise (Diagnostic.Ordered (· < ·))
  /-- Then come those of the definition pass, -/
  definitions_eq : definitions =
    (Definition.readAll program.bindings body.stop Automaton.empty body.tokens).2
  /-- in order, -/
  definitions_ordered : definitions.Pairwise (Diagnostic.Ordered (· ≤ ·))
  /-- and for each case that is tried, in view of those before it in the block, what is wrong with
  its names in front of what is wrong with its shape. -/
  cases : ∀ name block,
    Definition.ReadsBlock program.bindings body.stop Automaton.empty body.tokens name block →
      ∀ earlier row later, Block.attempts block = earlier ++ row :: later → ∃ state : State,
        (∀ entry, entry ∈ state ↔ Block.IsFirst program.bindings name.value earlier entry) ∧
          Case.problems program.bindings state (caseShape.read row).matched ++
            caseShape.problems body.stop row <:+: definitions
  /-- Last comes that there is no initial state, which has no place, or nothing. -/
  whole_eq : whole = [] ∨ whole = [{ kind := .parse .noInitialState, place := none, value := "" }]
  /-- All others have one. -/
  located : ∀ diagnostic ∈ names ++ definitions,
    ∃ span, diagnostic.Located source program.automaton.initial span

/-! ### Tokens in a text -/

namespace Token

/-- The span of a token that is no error is its extent, with or without the delimiters. -/
theorem extent_cases {token : Token} (h : token.kind ≠ .error) :
    token.extent = token.span ∨ token.extent = token.span.widened ∧
      (token.kind = .comment ∨ token.kind = .string ∨ token.kind = .character) := by
  unfold extent
  cases hkind : token.kind <;> simp_all

/-- Delimiters are two characters. -/
theorem Faithful.two_le_length {source : Text} {token : Token} (h : token.Faithful source)
    (hkind : token.kind = .comment ∨ token.kind = .string ∨ token.kind = .character) :
    2 ≤ (token.extent.cut source).length := by
  rcases hkind with hkind | hkind | hkind
  · obtain ⟨body, hbody, -⟩ := h.comment hkind
    simp [hbody]
  · obtain ⟨body, hbody, -⟩ := h.string hkind
    simp [hbody]
  · obtain ⟨c, hc⟩ := h.character hkind
    simp [hc]

/-- The span of a token that is no error starts before its extent ends and ends no later. -/
theorem ReadAt.span_inside {source : Text} {start stop : Nat} {token : Token}
    (h : token.ReadAt source start stop) (hkind : token.kind ≠ .error) :
    start ≤ token.span.position ∧ token.span.position < stop ∧ 0 ≤ token.span.length ∧
      token.span.position + token.span.length ≤ stop := by
  have hextent := h.extent
  have hlt := h.lt
  rcases extent_cases hkind with hspan | ⟨hspan, hdelimited⟩
  · rw [hspan] at hextent
    rw [hextent]
    dsimp only
    omega
  · have hlength := (h.faithful hkind).two_le_length hdelimited
    rw [hextent, Span.cut, List.length_take] at hlength
    simp only [hspan, Span.widened, Span.mk.injEq] at hextent
    dsimp only at hlength
    omega

end Token

/-- The tokens of a program stand in a text. -/
structure Body.InText (source : Text) (body : Body) : Prop where
  /-- They stand one behind the other, -/
  ordered : body.tokens.Pairwise fun left right => left.span.position < right.span.position
  /-- before the end, -/
  inside : ∀ token ∈ body.tokens, 0 ≤ token.span.position ∧ token.span.position < source.length ∧
    0 ≤ token.span.length ∧ token.span.position + token.span.length ≤ source.length
  /-- and say what stands there. -/
  faithful : ∀ token ∈ body.tokens, token.Faithful source
  /-- The end is that of the text. -/
  stop_eq : body.stop = { position := source.length, length := 0 }

namespace Body

/-- Comments do not matter to a body. -/
theorem ofTokens_filter (tokens : List Token) :
    ofTokens (tokens.filter (·.kind != .comment)) = ofTokens tokens := by
  simp only [ofTokens, List.filter_filter, Bool.and_self]

theorem inText_ofText {source : Text} (h : ∀ token ∈ Token.ofText source, token.kind ≠ .error) :
    InText source (ofTokens (Token.ofText source)) := by
  obtain ⟨tokens, htokens, htiles⟩ := Token.tiles_ofTextAt 0 source rfl (Nat.zero_le _)
  have hsource : Token.ofText source = tokens ++ [Token.ending source.length] := htokens
  have hread : ∀ token ∈ tokens, ∃ start stop, token.ReadAt source start stop ∧
      token.kind ≠ .error := by
    intro token hmem
    obtain ⟨start, stop, -, hread⟩ := htiles.readAt token hmem
    refine ⟨start, stop, hread, h token ?_⟩
    rw [hsource]
    exact List.mem_append_left _ hmem
  have hbody : ofTokens (Token.ofText source) =
      ⟨tokens.filter (·.kind != .comment), (Token.ending source.length).span⟩ := by
    rw [hsource, ← ofTokens_filter, List.filter_append, List.filter_singleton]
    refine ofTokens_ending ?_ rfl
    intro token hmem
    obtain ⟨hmem, hcomment⟩ := List.mem_filter.mp hmem
    obtain ⟨start, stop, hread, -⟩ := hread token hmem
    exact ⟨by simpa using hcomment, hread.going⟩
  rw [hbody]
  refine ⟨?_, ?_, ?_, rfl⟩
  · refine (htiles.ordered.imp_of_mem ?_).filter _
    intro left right hleft hright hapart
    obtain ⟨start, stop, hreadLeft, hkindLeft⟩ := hread left hleft
    obtain ⟨first, last, hreadRight, hkindRight⟩ := hread right hright
    have hinsideLeft := hreadLeft.span_inside hkindLeft
    have hinsideRight := hreadRight.span_inside hkindRight
    rw [hreadLeft.stop_extent, hreadRight.extent] at hapart
    dsimp only at hapart
    omega
  · intro token hmem
    obtain ⟨start, stop, hread, hkind⟩ := hread token (List.mem_of_mem_filter hmem)
    have hinside := hread.span_inside hkind
    have hle := hread.le
    omega
  · intro token hmem
    obtain ⟨start, stop, hread, hkind⟩ := hread token (List.mem_of_mem_filter hmem)
    exact hread.faithful hkind

namespace InText

variable {source : Text} {body : Body} {initial : String} {here there : List Token}
  {diagnostic : Diagnostic}

/-- From tokens to tokens behind them, positions do not fall. -/
theorem headSpan_le (h : InText source body) (hhere : here <:+ body.tokens)
    (hthere : there <:+ here) :
    (headSpan body.stop here).position ≤ (headSpan body.stop there).position := by
  obtain ⟨passed, rfl⟩ := hthere
  cases passed with
  | nil => exact Int.le_refl _
  | cons first passed =>
    obtain ⟨hfirst, -⟩ := List.pairwise_cons.mp (h.ordered.sublist hhere.sublist)
    cases there with
    | nil =>
      have hinside := h.inside first (hhere.subset List.mem_cons_self)
      rw [h.stop_eq]
      exact Int.le_of_lt hinside.2.1
    | cons token rest =>
      exact Int.le_of_lt (hfirst token (by simp))

theorem headSpan_inside (h : InText source body) (hhere : here <:+ body.tokens) :
    let span := headSpan body.stop here
    0 ≤ span.position ∧ 0 ≤ span.length ∧ span.position + span.length ≤ source.length := by
  cases here with
  | nil =>
    rw [headSpan, h.stop_eq]
    dsimp only
    omega
  | cons token rest =>
    obtain ⟨hfirst, -, hlength, hlast⟩ := h.inside token (hhere.subset List.mem_cons_self)
    exact ⟨hfirst, hlength, hlast⟩

/-- A diagnostic about tokens of a text points at what it speaks of. -/
theorem located (h : InText source body) (hhere : here <:+ body.tokens)
    (hpoints : diagnostic.PointsAt body.stop initial here) :
    diagnostic.Located source initial (headSpan body.stop here) := by
  refine ⟨hpoints.place_eq, h.headSpan_inside hhere, ?_, ?_⟩
  · intro hkind
    cases hpoints with
    | @name fault token tokens hfault hname =>
      have hfaithful := h.faithful token (hhere.subset List.mem_cons_self)
      exact (hfaithful.value (.inl hname)).symm
    | mark hmark => simp [Diagnostic.atSpan] at hkind
    | other hfault =>
      simp only [Diagnostic.atSpan, List.mem_cons, Diagnostic.Kind.parse.injEq, List.not_mem_nil,
        or_false] at hkind
      rcases hkind with rfl | rfl | rfl <;> cases hfault
  · intro hkind
    cases hpoints with
    | name hfault hname =>
      obtain rfl := Diagnostic.Kind.parse.inj hkind
      cases hfault
    | @mark token tokens hmark =>
      have hfaithful := h.faithful token (hhere.subset List.mem_cons_self)
      exact ⟨hfaithful.spelling "initial" (by rw [hmark]; rfl), rfl⟩
    | other hfault =>
      obtain rfl := Diagnostic.Kind.parse.inj hkind
      cases hfault

/-- The diagnostics of a trail along the tokens of a text are in order. -/
theorem ordered_of_trail (h : InText source body) {diagnostics : List Diagnostic}
    {rest : List Token} (htrail : Diagnostic.Trail body.stop initial body.tokens diagnostics rest) :
    diagnostics.Pairwise (Diagnostic.Ordered (· ≤ ·)) := by
  refine htrail.pairwise.imp ?_
  intro earlier later hpair
  obtain ⟨here, there, hhere, hthere, hearlier, hlater⟩ := hpair
  exact ⟨_, _, hearlier.place_eq, hlater.place_eq, h.headSpan_le hhere hthere⟩

end InText

end Body

/-! ### Names in use -/

namespace Declaration

/-- The name of a declaration is the token behind the keyword. -/
theorem name_of_siteAt? {tokens : List Token} {i : Nat} {declaration : Declaration}
    (h : siteAt? tokens i = some declaration) :
    tokens[i + 1]? = some declaration.name ∧ declaration.name.kind = .identifier := by
  simp only [siteAt?, Option.bind_eq_bind, Option.bind_eq_some_iff, Option.ite_none_right_eq_some]
    at h
  obtain ⟨keyword, -, name, hname, hkind, h⟩ := h
  have heq : declaration.name = name := by
    split at h
    · rw [← Option.some.inj h]
    · obtain ⟨literal, -, h⟩ := Option.bind_eq_some_iff.mp h
      split at h
      · rw [← Option.some.inj h]
      · rw [← Option.some.inj h]
      · cases h
    · cases h
  rw [heq]
  exact ⟨hname, hkind⟩

/-- The declared names stand among the tokens in the order of the declarations. -/
theorem names_sites_sublist (tokens : List Token) :
    ((sites tokens).map Declaration.name).Sublist tokens.tail := by
  induction tokens with
  | nil => exact List.Sublist.slnil
  | cons token tokens ih =>
    rw [sites_cons, List.tail_cons]
    cases hsite : siteAt? (token :: tokens) 0 with
    | none => exact ih.trans (List.tail_sublist tokens)
    | some declaration =>
      obtain ⟨hname, -⟩ := name_of_siteAt? hsite
      obtain ⟨rest, rfl⟩ : ∃ rest, tokens = declaration.name :: rest :=
        List.head?_eq_some_iff.mp (by rw [List.head?_eq_getElem?]; exact hname)
      exact ih.cons_cons declaration.name

theorem names_laterSites_sublist (tokens : List Token) :
    ((laterSites tokens).map Declaration.name).Sublist tokens := by
  have hlater : (laterSites tokens).Sublist (sites tokens) :=
    List.filter_sublist.filterMap (siteAt? tokens)
  exact (hlater.map _).trans ((names_sites_sublist tokens).trans (List.tail_sublist tokens))

theorem kind_name_of_mem_laterSites {tokens : List Token} {declaration : Declaration}
    (h : declaration ∈ laterSites tokens) : declaration.name.kind = .identifier := by
  obtain ⟨i, -, hsite⟩ := List.mem_filterMap.mp h
  exact (name_of_siteAt? hsite).2

/-- A name in use is reported where it stands. -/
theorem exists_pointsAt_of_mem_laterSites {tokens : List Token} {declaration : Declaration}
    (h : declaration ∈ laterSites tokens) (stop : Span) (initial : String) :
    ∃ here, here <:+ tokens ∧ declaration.complaint.PointsAt stop initial here := by
  have hmem : declaration.name ∈ tokens :=
    (names_laterSites_sublist tokens).subset (List.mem_map_of_mem h)
  obtain ⟨passed, rest, htokens⟩ := List.append_of_mem hmem
  exact ⟨declaration.name :: rest, ⟨passed, htokens.symm⟩,
    .name rfl (kind_name_of_mem_laterSites h)⟩

end Declaration

namespace Body.InText

variable {source : Text} {body : Body}

theorem ordered_repeated (h : InText source body) :
    (Declaration.repeated (Declaration.ofTokens body.tokens)).Pairwise
      (Diagnostic.Ordered (· < ·)) := by
  have hnames := h.ordered.sublist (Declaration.names_laterSites_sublist body.tokens)
  rw [Declaration.repeated_ofTokens, List.pairwise_map]
  rw [List.pairwise_map] at hnames
  exact hnames.imp fun hlt => ⟨_, _, rfl, rfl, hlt⟩

theorem located_repeated (h : InText source body) (initial : String) {diagnostic : Diagnostic}
    (hmem : diagnostic ∈ Declaration.repeated (Declaration.ofTokens body.tokens)) :
    ∃ span, diagnostic.Located source initial span := by
  rw [Declaration.repeated_ofTokens] at hmem
  obtain ⟨declaration, hlater, rfl⟩ := List.mem_map.mp hmem
  obtain ⟨here, hhere, hpoints⟩ :=
    Declaration.exists_pointsAt_of_mem_laterSites hlater body.stop initial
  exact ⟨_, h.located hhere hpoints⟩

end Body.InText

/-! ### Texts -/

/-- The program as a whole has nothing wrong with it, or no initial state. -/
theorem Program.initialProblems_cases (automaton : Automaton) :
    initialProblems automaton = [] ∨
      initialProblems automaton =
        [{ kind := .parse .noInitialState, place := none, value := "" }] := by
  rw [initialProblems]
  split
  · exact .inr rfl
  · exact .inl rfl

namespace Compilation

/-- The diagnostics of a text without lexical faults come in the order of the text, first those on
names in use and then the others, and point at what they speak of. -/
theorem ofText_in_scan_order {source : Text}
    (h : ∀ token ∈ Token.ofText source, token.kind ≠ .error) :
    let program := Program.ofTokens (Token.ofText source)
    (ofText source).automaton = some program.automaton ∧
      (ofText source).diagnostics = program.diagnostics ∧
      ∃ names definitions whole,
        program.ScanOrder source (Body.ofTokens (Token.ofText source)) names definitions whole := by
  intro program
  obtain ⟨hdiagnostics, hautomaton⟩ := ofText_of_no_error h
  have hbody := Body.inText_ofText h
  have htrail := Definition.trail_readAll program.bindings
    (Body.ofTokens (Token.ofText source)).stop Automaton.empty
    (Body.ofTokens (Token.ofText source)).tokens
  refine ⟨hautomaton, hdiagnostics, _, _, _, rfl, Program.filter_nameInUse _,
    hbody.ordered_repeated, rfl, hbody.ordered_of_trail htrail, ?_,
    Program.initialProblems_cases _, ?_⟩
  · intro name block hblock earlier row later hrow
    exact hblock.exists_infix_readAll hrow
  · intro diagnostic hmem
    rcases List.mem_append.mp hmem with hmem | hmem
    · exact hbody.located_repeated _ hmem
    · obtain ⟨here, hhere, hpoints⟩ := htrail.exists_pointsAt hmem
      exact ⟨_, hbody.located hhere hpoints⟩

/-- Everything goes by one name, and by others that stand for nothing. The first case breaks off
behind such a name, and the last block is not closed. -/
def disputed : Text :=
  "initial state a \x7b b/'x' R d/'y',L->q \x7d define a 'y' initial state a \x7b 'x'/c,L->self".toList

theorem ofText_in_scan_order_disputed :
    (∀ token ∈ Token.ofText disputed, token.kind ≠ .error) ∧
      (ofText disputed).diagnostics.map (fun diagnostic => (diagnostic.kind, diagnostic.place)) =
        [(.parse .nameInUse, some ⟨46, 1⟩), (.parse .nameInUse, some ⟨66, 1⟩),
          (.parse .unknownConstant, some ⟨18, 1⟩), (.parse .expectedComma, some ⟨24, 1⟩),
          (.parse .unknownConstant, some ⟨26, 1⟩), (.parse .unknownState, some ⟨35, 1⟩),
          (.parse .secondInitialState, some ⟨52, 7⟩), (.parse .unknownConstant, some ⟨74, 1⟩),
          (.parse .expectedRightBrace, some ⟨83, 0⟩)] ∧
      ∃ names definitions whole,
        (Program.ofTokens (Token.ofText disputed)).ScanOrder disputed
          (Body.ofTokens (Token.ofText disputed)) names definitions whole := by
  have hclean : ∀ token ∈ Token.ofText disputed, token.kind ≠ .error := by decide +kernel
  exact ⟨hclean, by decide +kernel, (ofText_in_scan_order hclean).2.2⟩

end Compilation

end TapeMachine
