import Mathlib.Data.List.Range
import TapeMachine.Program.Basic
import TapeMachine.Proofs.Program.Course
import TapeMachine.Proofs.Program.Places

/-!
# TapeMachine.Proofs.Program.Sites

The declaration pass finds every declaration, in whatever surroundings.

A declaration is told by two or three tokens in a row, so the declarations among some tokens can be
listed by looking at each index on its own (`Declaration.siteAt?`). The pass instead walks along the
tokens and goes on, after a declaration that broke off, sometimes with the token it stopped at and
sometimes behind it. `Declaration.ofTokens_eq_sites` says that it misses nothing that way and finds
nothing else: what a step passes over is no site.

* `Declaration.firstSites`, `Declaration.laterSites` — the sites at which a name is declared for the
  first time, and the others.
* `Program.ofTokens_declares` — the first ones make the table of names, and each of the others is
  reported.
-/

namespace TapeMachine

namespace Declaration

/-! ### Sites -/

/-- The declaration at an index of some tokens: a constant where `define`, a name and a literal
stand in a row, a state where `state` and a name do. -/
def siteAt? (tokens : List Token) (i : Nat) : Option Declaration := do
  let keyword ← tokens[i]?
  let name ← tokens[i + 1]?
  if name.kind = .identifier then
    match keyword.kind with
    | .state => some { name, binding := .state }
    | .define =>
      let literal ← tokens[i + 2]?
      match literal.kind with
      | .character => some { name, binding := .character literal.value }
      | .string => some { name, binding := .string literal.value }
      | _ => none
    | _ => none
  else none

/-- The declarations among some tokens, index by index. -/
def sites (tokens : List Token) : List Declaration :=
  (List.range tokens.length).filterMap (siteAt? tokens)

theorem siteAt?_succ (token : Token) (tokens : List Token) (i : Nat) :
    siteAt? (token :: tokens) (i + 1) = siteAt? tokens i := rfl

theorem sites_cons (token : Token) (tokens : List Token) :
    sites (token :: tokens) = (siteAt? (token :: tokens) 0).toList ++ sites tokens := by
  have htail : (siteAt? (token :: tokens)) ∘ Nat.succ = siteAt? tokens := by
    funext i
    exact siteAt?_succ token tokens i
  rw [sites, List.length_cons, List.range_succ_eq_map, List.filterMap_cons, List.filterMap_map,
    htail, ← sites]
  cases siteAt? (token :: tokens) 0 <;> rfl

/-- No declaration starts at a token that is neither of the two keywords. -/
theorem sites_cons_of_ne {token : Token} (hdefine : token.kind ≠ .define)
    (hstate : token.kind ≠ .state) (tokens : List Token) :
    sites (token :: tokens) = sites tokens := by
  have hnone : siteAt? (token :: tokens) 0 = none := by
    cases tokens with
    | nil => rfl
    | cons name tokens => simp [siteAt?]
  rw [sites_cons, hnone]
  rfl

theorem sites_cons_of_identifier {token : Token} (h : token.kind = .identifier)
    (tokens : List Token) : sites (token :: tokens) = sites tokens :=
  sites_cons_of_ne (by simp [h]) (by simp [h]) tokens

/-- What is skipped after a declaration that broke off is no site. -/
theorem sites_resume (tokens : List Token) : sites (resume tokens) = sites tokens := by
  cases tokens with
  | nil => rfl
  | cons token tokens =>
    by_cases hstarts : token.startsDefinition = true
    · rw [resume, if_pos hstarts]
    · rw [resume, if_neg hstarts]
      have hkind : token.kind ≠ .define ∧ token.kind ≠ .state := by
        constructor <;> intro hkind <;>
          simp [Token.startsDefinition, Token.Kind.startsDefinition, hkind] at hstarts
      rw [sites_cons_of_ne hkind.1 hkind.2]

/-! ### The walk finds the sites -/

/-- What a step of the walk declares, and the sites among what it leaves. -/
def stepSites (step : Option Declaration × List Token) : List Declaration :=
  step.1.toList ++ sites step.2

theorem stepSites_resume (tokens : List Token) :
    stepSites (none, resume tokens) = sites tokens :=
  sites_resume tokens

theorem stepSites_readState {keyword : Token} (h : keyword.kind = .state) (tokens : List Token) :
    stepSites (readState tokens) = sites (keyword :: tokens) := by
  rw [sites_cons]
  cases tokens with
  | nil => rfl
  | cons name tokens =>
    by_cases hname : name.kind = .identifier
    · simp [readState, stepSites, siteAt?, h, hname, sites_cons_of_identifier]
    · rw [readState, if_neg hname, stepSites_resume]
      simp [siteAt?, hname]

theorem stepSites_readConstant {keyword : Token} (h : keyword.kind = .define)
    (tokens : List Token) : stepSites (readConstant tokens) = sites (keyword :: tokens) := by
  rw [sites_cons]
  cases tokens with
  | nil => rfl
  | cons name tokens =>
    by_cases hname : name.kind = .identifier
    · rw [readConstant, if_pos hname, sites_cons_of_identifier hname]
      cases tokens with
      | nil => simp [readLiteral, stepSites, siteAt?, h, hname]
      | cons literal tokens =>
        have hsite : siteAt? (keyword :: name :: literal :: tokens) 0 =
            (Binding.ofLiteral? literal).map fun binding => { name, binding } := by
          simp only [siteAt?, List.getElem?_cons_zero, List.getElem?_cons_succ, h, hname,
            Option.bind_eq_bind, Option.bind_some, if_true, Binding.ofLiteral?]
          cases literal.kind <;> rfl
        cases hliteral : Binding.ofLiteral? literal with
        | none =>
          rw [hsite, hliteral]
          simp only [readLiteral, hliteral, stepSites_resume]
          rfl
        | some binding =>
          have hkind : literal.kind ≠ .define ∧ literal.kind ≠ .state := by
            constructor <;> intro hkind <;> simp [Binding.ofLiteral?, hkind] at hliteral
          rw [hsite, hliteral, sites_cons_of_ne hkind.1 hkind.2]
          simp only [readLiteral, hliteral, stepSites]
          rfl
    · rw [readConstant, if_neg hname, stepSites_resume]
      simp [siteAt?, hname]

theorem stepSites_readInitial (tokens : List Token) :
    stepSites (readInitial tokens) = sites tokens := by
  cases tokens with
  | nil => rfl
  | cons token tokens =>
    by_cases hstate : token.kind = .state
    · rw [readInitial, if_pos hstate]
      exact stepSites_readState hstate tokens
    · rw [readInitial, if_neg hstate]
      exact stepSites_resume (token :: tokens)

/-- A step of the walk passes over no site but the one it declares. -/
theorem stepSites_readAt (token : Token) (tokens : List Token) :
    stepSites (readAt token tokens) = sites (token :: tokens) := by
  unfold readAt
  split
  · next hkind => exact stepSites_readConstant hkind tokens
  · next hkind =>
    rw [stepSites_readInitial, sites_cons_of_ne (by simp [hkind]) (by simp [hkind])]
  · next hkind => exact stepSites_readState hkind tokens
  · next hdefine _ hstate => exact (sites_cons_of_ne hdefine hstate tokens).symm

/-- The walk along some tokens finds the declarations at their sites, in order. -/
theorem ofTokens_eq_sites (tokens : List Token) : ofTokens tokens = sites tokens := by
  fun_induction ofTokens tokens with
  | case1 => rfl
  | case2 token tokens ih =>
    rw [ih]
    exact stepSites_readAt token tokens

/-! ### The first site of a name and the others -/

/-- The name that is declared at an index. -/
def nameAt? (tokens : List Token) (i : Nat) : Option String :=
  (siteAt? tokens i).map (·.name.value)

/-- Whether the name that is declared at an index is declared before it, too. -/
def IsLater (tokens : List Token) (i : Nat) : Prop :=
  ∃ j < i, nameAt? tokens j = nameAt? tokens i

instance (tokens : List Token) : DecidablePred (IsLater tokens) := fun i =>
  inferInstanceAs (Decidable (∃ j < i, nameAt? tokens j = nameAt? tokens i))

/-- The declarations of names that are new, index by index. -/
def firstSites (tokens : List Token) : List Declaration :=
  ((List.range tokens.length).filter (¬ IsLater tokens ·)).filterMap (siteAt? tokens)

/-- The declarations of names that are taken, index by index. -/
def laterSites (tokens : List Token) : List Declaration :=
  ((List.range tokens.length).filter (IsLater tokens ·)).filterMap (siteAt? tokens)

/-- The entry of a declaration in the table of names. -/
def entry (declaration : Declaration) : String × Binding :=
  (declaration.name.value, declaration.binding)

/-- The diagnostic on a declaration whose name is taken. -/
def complaint (declaration : Declaration) : Diagnostic :=
  Diagnostic.atSpan .nameInUse declaration.name.span declaration.name.value

theorem bindings_concat (declarations : List Declaration) (declaration : Declaration) :
    bindings (declarations ++ [declaration]) = enter (bindings declarations) declaration := by
  rw [bindings, List.foldl_append]
  rfl

theorem repeatedFrom_concat (taken : Bindings) (declarations : List Declaration)
    (declaration : Declaration) :
    repeatedFrom taken (declarations ++ [declaration]) =
      repeatedFrom taken declarations ++
        if (declarations.foldl enter taken).has declaration.name.value then
          [complaint declaration]
        else [] := by
  induction declarations generalizing taken with
  | nil => rfl
  | cons first rest ih =>
    simp only [List.cons_append, repeatedFrom, ih, List.foldl_cons]
    by_cases hhas : taken.has first.name.value = true
    · rw [if_pos hhas, if_pos hhas, List.cons_append]
      rfl
    · rw [if_neg hhas, if_neg hhas]
      rfl

theorem mem_names_enter {table : Bindings} {declaration : Declaration} {name : String} :
    name ∈ (enter table declaration).names ↔
      name ∈ table.names ∨ declaration.name.value = name := by
  rw [enter]
  by_cases hhas : table.has declaration.name.value = true
  · rw [if_pos hhas, or_iff_left_of_imp]
    rintro rfl
    exact (Table.has_eq_true_iff _ _).mp hhas
  · rw [if_neg hhas]
    simp [eq_comm]

/-- The table has the names that are declared. -/
theorem mem_names_bindings {declarations : List Declaration} {name : String} :
    name ∈ (bindings declarations).names ↔
      ∃ declaration ∈ declarations, declaration.name.value = name := by
  induction declarations using List.reverseRecOn with
  | nil => simp [bindings]
  | append_singleton declarations declaration ih =>
    rw [bindings_concat, mem_names_enter, ih]
    simp [or_and_right, exists_or]

section

variable {tokens : List Token}

/-- A name is taken when its turn comes exactly if it is declared before. -/
theorem has_bindings_iff {n : Nat} {declaration : Declaration}
    (h : siteAt? tokens n = some declaration) :
    (bindings ((List.range n).filterMap (siteAt? tokens))).has declaration.name.value = true ↔
      IsLater tokens n := by
  have hname : nameAt? tokens n = some declaration.name.value := by rw [nameAt?, h]; rfl
  rw [Table.has_eq_true_iff, mem_names_bindings, IsLater, hname]
  simp only [List.mem_filterMap, List.mem_range, nameAt?, Option.map_eq_some_iff]
  constructor
  · intro hgiven
    obtain ⟨earlier, ⟨j, hj, hsite⟩, heq⟩ := hgiven
    exact ⟨j, hj, earlier, hsite, heq⟩
  · intro hgiven
    obtain ⟨j, hj, earlier, hsite, heq⟩ := hgiven
    exact ⟨earlier, ⟨j, hj, hsite⟩, heq⟩

/-- Up to any index, the names that are new make the table, and the others are reported. -/
theorem enter_sites (tokens : List Token) (n : Nat) :
    bindings ((List.range n).filterMap (siteAt? tokens)) =
      (((List.range n).filter (¬ IsLater tokens ·)).filterMap (siteAt? tokens)).map entry ∧
    repeated ((List.range n).filterMap (siteAt? tokens)) =
      (((List.range n).filter (IsLater tokens ·)).filterMap (siteAt? tokens)).map complaint := by
  induction n with
  | zero => exact ⟨rfl, rfl⟩
  | succ n ih =>
    obtain ⟨hbindings, hrepeated⟩ := ih
    simp only [List.range_succ, List.filterMap_append, List.filter_append, List.map_append]
    cases hsite : siteAt? tokens n with
    | none =>
      -- an index without a site adds to neither list
      have hone : [n].filterMap (siteAt? tokens) = [] := by simp [hsite]
      have hskip : ∀ keep : Nat → Bool, ([n].filter keep).filterMap (siteAt? tokens) = [] := by
        intro keep
        by_cases hkeep : keep n = true
        · simp [hkeep, hsite]
        · simp [hkeep]
      simp only [hone, hskip, List.append_nil, List.map_nil]
      exact ⟨hbindings, hrepeated⟩
    | some declaration =>
      have hhas := has_bindings_iff hsite
      have hone : [n].filterMap (siteAt? tokens) = [declaration] := by simp [hsite]
      rw [hone, bindings_concat, repeated, repeatedFrom_concat, ← bindings, ← repeated, enter]
      by_cases hlater : IsLater tokens n
      · have htaken := hhas.mpr hlater
        rw [if_pos htaken, if_pos htaken, hbindings, hrepeated]
        simp [hsite, hlater]
      · have hnew := mt hhas.mp hlater
        rw [if_neg hnew, if_neg hnew, Table.add, hbindings, hrepeated]
        simp [hsite, hlater, entry]

end

/-- The table lists the names at their first sites. -/
theorem bindings_ofTokens (tokens : List Token) :
    bindings (ofTokens tokens) = (firstSites tokens).map entry := by
  rw [ofTokens_eq_sites]
  exact (enter_sites tokens tokens.length).1

/-- The names at the other sites are reported, each at its own. -/
theorem repeated_ofTokens (tokens : List Token) :
    repeated (ofTokens tokens) = (laterSites tokens).map complaint := by
  rw [ofTokens_eq_sites]
  exact (enter_sites tokens tokens.length).2

/-- A name behind the keyword of a state is in the table, whatever stands around it. -/
theorem mem_names_of_state {before rest : List Token} {keyword name : Token}
    (hkeyword : keyword.kind = .state) (hname : name.kind = .identifier) :
    name.value ∈ (bindings (ofTokens (before ++ keyword :: name :: rest))).names := by
  rw [mem_names_bindings, ofTokens_eq_sites]
  refine ⟨{ name, binding := .state }, ?_, rfl⟩
  refine List.mem_filterMap.mpr ⟨before.length, by simp, ?_⟩
  simp [siteAt?, hkeyword, hname]

end Declaration

/-! ### Programs -/

theorem Declaration.kind_of_mem_repeated {tokens : List Token} {diagnostic : Diagnostic}
    (h : diagnostic ∈ repeated (ofTokens tokens)) : diagnostic.kind = .parse .nameInUse := by
  rw [repeated_ofTokens] at h
  obtain ⟨declaration, -, rfl⟩ := List.mem_map.mp h
  rfl

namespace Program

theorem kind_of_mem_initialProblems {automaton : Automaton} {diagnostic : Diagnostic}
    (h : diagnostic ∈ initialProblems automaton) : diagnostic.kind = .parse .noInitialState := by
  rw [initialProblems] at h
  split at h
  · rw [List.mem_singleton.mp h]
  · cases h

/-- Of all that is reported, the names in use are what the declaration pass reports. -/
theorem filter_nameInUse (tokens : List Token) :
    (ofTokens tokens).diagnostics.filter (·.kind == .parse .nameInUse) =
      Declaration.repeated (Declaration.ofTokens (Body.ofTokens tokens).tokens) := by
  simp only [ofTokens, List.filter_append]
  rw [List.filter_eq_self.mpr, List.filter_eq_nil_iff.mpr, List.filter_eq_nil_iff.mpr,
    List.append_nil, List.append_nil]
  · intro diagnostic hmem
    rw [kind_of_mem_initialProblems hmem]
    decide
  · intro diagnostic hmem
    rw [beq_iff_eq]
    exact Definition.kind_ne_of_mem_readAll hmem rfl
  · intro diagnostic hmem
    rw [Declaration.kind_of_mem_repeated hmem, beq_self_eq_true]

/-- The declaration pass finds every declaration, whatever the tokens are. The table of names lists,
in order, the first site of each name; the other sites are reported, in order, each at its name; and
every block that the definition pass reads has its name in the table. -/
theorem ofTokens_declares (tokens : List Token) :
    (ofTokens tokens).bindings =
        (Declaration.firstSites (Body.ofTokens tokens).tokens).map Declaration.entry ∧
    (ofTokens tokens).diagnostics.filter (·.kind == .parse .nameInUse) =
        (Declaration.laterSites (Body.ofTokens tokens).tokens).map Declaration.complaint ∧
    ∀ name block, Definition.ReadsBlock (ofTokens tokens).bindings (Body.ofTokens tokens).stop
        Automaton.empty (Body.ofTokens tokens).tokens name block →
      name.value ∈ (ofTokens tokens).bindings.names := by
  refine ⟨Declaration.bindings_ofTokens _, ?_, ?_⟩
  · rw [filter_nameInUse, Declaration.repeated_ofTokens]
  · intro name block hblock
    obtain ⟨before, keyword, opening, htokens, hkeyword, hname, -⟩ := hblock.exists_head
    rw [ofTokens, htokens]
    exact Declaration.mem_names_of_state hkeyword hname

end Program

end TapeMachine
