import Mathlib.Data.List.Forall2
import TapeMachine.Editor.Notices
import TapeMachine.Proofs.Command.Verdict
import TapeMachine.Proofs.Diagnostic.Carets

/-!
# TapeMachine.Proofs.Diagnostic.Reporting

What is wrong with a program is told in three places: to whoever asks for its automaton, by the
command and in an editor. They agree.

All three word the diagnostics one after the other, and wording depends on the template alone: three
templates cannot be filled whatever the value is (`Diagnostic.Kind.flaw?`), and in all others the
value goes where the hole is, as it is (`Diagnostic.Worded`). So a program is accepted, reported on,
or its first diagnostic with such a template ends everything.

* `Compilation.Accepted`, `Compilation.Reported`, `Compilation.Unwordable` — what is told then.
* `Compilation.exactly_one_outcome` — it is always exactly one of them.
-/

namespace TapeMachine

/-! ### Rows of computations that can fail -/

section

variable {α β ε : Type} {f : α → Except ε β}

theorem exists_mapM_eq_ok {R : α → β → Prop} {xs : List α}
    (h : ∀ x ∈ xs, ∃ y, f x = .ok y ∧ R x y) :
    ∃ ys, xs.mapM f = .ok ys ∧ List.Forall₂ (fun x y => f x = .ok y ∧ R x y) xs ys := by
  induction xs with
  | nil => exact ⟨[], rfl, .nil⟩
  | cons x xs ih =>
    obtain ⟨y, hy, hrel⟩ := h x List.mem_cons_self
    obtain ⟨ys, hys, hall⟩ := ih fun x hx => h x (.tail _ hx)
    refine ⟨y :: ys, ?_, .cons ⟨hy, hrel⟩ hall⟩
    rw [List.mapM_cons, hy, hys]
    rfl

theorem forall₂_of_mapM_eq_ok {xs : List α} {ys : List β} (h : xs.mapM f = .ok ys) :
    List.Forall₂ (fun x y => f x = .ok y) xs ys := by
  induction xs generalizing ys with
  | nil =>
    obtain rfl := Except.ok.inj h
    exact .nil
  | cons x xs ih =>
    rw [List.mapM_cons] at h
    cases hx : f x with
    | error error =>
      rw [hx] at h
      cases h
    | ok y =>
      cases hxs : xs.mapM f with
      | error error =>
        rw [hx, hxs] at h
        cases h
      | ok rest =>
        rw [hx, hxs] at h
        obtain rfl := Except.ok.inj h
        exact .cons hx (ih hxs)

/-- The first failure decides. -/
theorem mapM_eq_error {R : α → β → Prop} {before after : List α} {x : α} {error : ε}
    (hbefore : ∀ x ∈ before, ∃ y, f x = .ok y ∧ R x y) (h : f x = .error error) :
    (before ++ x :: after).mapM f = .error error := by
  obtain ⟨ys, hys, -⟩ := exists_mapM_eq_ok hbefore
  rw [List.mapM_append, hys, List.mapM_cons, h]
  rfl

end

/-! ### Wording -/

namespace Template

/-- The hole of a template. -/
def hole : String := "\x7bvalue\x7d"

/-- Whether a stretch of a template has no braces. -/
def isPlain (text : String) : Bool :=
  text.toList.all fun c => c != '{' && c != '}'

/-- A literal is a list of characters, which is checked without decoding it. -/
theorem isPlain_of_all {cs : List Char} (h : (cs.all fun c => c != '{' && c != '}') = true) :
    isPlain (String.ofList cs) = true := by
  rw [isPlain, String.toList_ofList, h]

theorem forall_of_isPlain {text : String} (h : isPlain text = true) :
    ∀ c ∈ text.toList, c ≠ '{' ∧ c ≠ '}' := by
  intro c hc
  simpa using List.all_eq_true.mp h c hc

/-- The value goes where the hole is. -/
theorem fill_hole (value : Text) {before after : String} (hbefore : isPlain before = true)
    (hafter : isPlain after = true) :
    fill value (before ++ hole ++ after).toList =
      .ok (before.toList ++ (value ++ after.toList)) := by
  have hhole : ∀ rest, fill value (hole.toList ++ rest) = (value ++ ·) <$> fill value rest :=
    fun _ => rfl
  rw [String.toList_append, String.toList_append, List.append_assoc,
    fill_append value (forall_of_isPlain hbefore), hhole,
    fill_plain value (forall_of_isPlain hafter)]
  rfl

end Template

namespace Diagnostic

/-- What is wrong with the template of a kind: three of them hold a brace that is no hole. -/
def Kind.flaw? : Kind → Option Template.Error
  | .parse .expectedLeftBrace => some .unclosedBrace
  | .parse .expectedRightBrace => some .strayBrace
  | .parse .expectedCaseSymbol => some .strayBrace
  | _ => none

/-- A template with a flaw cannot be filled, whatever the value. -/
theorem Kind.fill_of_flaw? {kind : Kind} {cause : Template.Error} (h : kind.flaw? = some cause)
    (value : Text) : Template.fill value kind.template.toList = .error cause := by
  unfold flaw? at h
  split at h
  · obtain rfl := Option.some.inj h
    rfl
  · obtain rfl := Option.some.inj h
    rfl
  · obtain rfl := Option.some.inj h
    rfl
  · cases h

/-- A message is the template of its kind, with the value of the diagnostic, as it is, where the
template has its hole. -/
def Worded (diagnostic : Diagnostic) (message : String) : Prop :=
  (Template.isPlain diagnostic.kind.template = true ∧ message = diagnostic.kind.template) ∨
    ∃ before after, Template.isPlain before = true ∧ Template.isPlain after = true ∧
      diagnostic.kind.template = before ++ Template.hole ++ after ∧
      message = before ++ diagnostic.value ++ after

/-- The templates without a flaw have one hole or none. -/
theorem Kind.template_cases {kind : Kind} (h : kind.flaw? = none) :
    Template.isPlain kind.template = true ∨
      ∃ before after, Template.isPlain before = true ∧ Template.isPlain after = true ∧
        kind.template = before ++ Template.hole ++ after := by
  cases kind with
  | lexical fault => cases fault <;> exact .inl (Template.isPlain_of_all (by decide))
  | parse fault =>
    cases fault
    case expectedLeftBrace | expectedRightBrace | expectedCaseSymbol => cases h
    case nameInUse =>
      exact .inr ⟨"id \"", "\" is already in use", Template.isPlain_of_all (by decide),
        Template.isPlain_of_all (by decide), rfl⟩
    case secondInitialState =>
      exact .inr ⟨"there should only be one initial state, \"", "\" is already initial",
        Template.isPlain_of_all (by decide), Template.isPlain_of_all (by decide), rfl⟩
    case duplicateCase =>
      exact .inr ⟨"case character '", "' cannot exist more than once in the same state",
        Template.isPlain_of_all (by decide), Template.isPlain_of_all (by decide), rfl⟩
    case unknownConstant =>
      exact .inr ⟨"could not find character constant \"", "\"",
        Template.isPlain_of_all (by decide), Template.isPlain_of_all (by decide), rfl⟩
    case unknownState =>
      exact .inr ⟨"state \"", "\" does not exist", Template.isPlain_of_all (by decide),
        Template.isPlain_of_all (by decide), rfl⟩
    all_goals exact .inl (Template.isPlain_of_all (by decide))

theorem exists_worded {diagnostic : Diagnostic} (h : diagnostic.kind.flaw? = none) :
    ∃ message, diagnostic.message = .ok message ∧ diagnostic.Worded message := by
  rcases Kind.template_cases h with hplain | ⟨before, after, hbefore, hafter, htemplate⟩
  · refine ⟨diagnostic.kind.template, ?_, .inl ⟨hplain, rfl⟩⟩
    rw [message, Template.fill_plain _ (Template.forall_of_isPlain hplain)]
    show Except.ok (String.ofList _) = _
    rw [String.ofList_toList]
  · refine ⟨before ++ diagnostic.value ++ after, ?_,
      .inr ⟨before, after, hbefore, hafter, htemplate, rfl⟩⟩
    rw [message, htemplate, Template.fill_hole _ hbefore hafter]
    show Except.ok (String.ofList _) = _
    simp [String.ofList_append, String.append_assoc]

theorem message_of_flaw? {diagnostic : Diagnostic} {cause : Template.Error}
    (h : diagnostic.kind.flaw? = some cause) : diagnostic.message = .error cause := by
  rw [message, Kind.fill_of_flaw? h]
  rfl

/-- A text that shows a diagnostic: its message behind a label, and on the next line the file, with
the line and the column of the place if there is one. -/
def HeadedBy (source : Text) (filename : String) (diagnostic : Diagnostic) (text : String) : Prop :=
  ∃ message, diagnostic.message = .ok message ∧
    match diagnostic.place with
    | none => text = "error: " ++ message ++ "\n" ++ "  --> " ++ filename
    | some span =>
      let place := Position.behind (source.take span.position.toNat)
      ∃ rest, text = "error: " ++ message ++ "\n" ++ arrow place.line ++ filename ++ ":" ++
        toString place.line ++ ":" ++ toString place.column ++ "\n" ++ rest

/-- Where a diagnostic can be worded, it has an excerpt that shows it. -/
theorem exists_excerpt {diagnostic : Diagnostic} (h : diagnostic.kind.flaw? = none)
    (source : Text) (filename : String) :
    ∃ text, diagnostic.excerpt (LineIndex.ofText source) filename = .ok text ∧
      diagnostic.HeadedBy source filename text := by
  obtain ⟨message, hmessage, -⟩ := exists_worded h
  cases hplace : diagnostic.place with
  | none =>
    refine ⟨"error: " ++ message ++ "\n  --> " ++ filename, ?_, message, hmessage, ?_⟩
    · rw [excerpt, hmessage, hplace]
      rfl
    · have hbreak : "\n  --> " = "\n" ++ "  --> " := by decide
      rw [hplace, hbreak]
      simp only [String.append_assoc]
  | some span =>
    have hexcerpt := excerpt_eq (LineIndex.ofText source) filename hplace hmessage
    rw [LineIndex.position_ofText] at hexcerpt
    refine ⟨_, hexcerpt, message, hmessage, ?_⟩
    rw [hplace]
    exact ⟨_, rfl⟩

theorem excerpt_of_flaw? {diagnostic : Diagnostic} {cause : Template.Error}
    (h : diagnostic.kind.flaw? = some cause) (index : LineIndex) (filename : String) :
    diagnostic.excerpt index filename = .error cause := by
  rw [excerpt, message_of_flaw? h]
  rfl

/-- Either no template has a flaw, or there is a first one that has. -/
theorem exists_first_flaw (diagnostics : List Diagnostic) :
    (∀ diagnostic ∈ diagnostics, diagnostic.kind.flaw? = none) ∨
      ∃ before diagnostic after cause, diagnostics = before ++ diagnostic :: after ∧
        (∀ earlier ∈ before, earlier.kind.flaw? = none) ∧
        diagnostic.kind.flaw? = some cause := by
  induction diagnostics with
  | nil => exact .inl (List.forall_mem_nil _)
  | cons first rest ih =>
    cases hfirst : first.kind.flaw? with
    | some cause => exact .inr ⟨[], first, rest, cause, rfl, List.forall_mem_nil _, hfirst⟩
    | none =>
      rcases ih with hnone | ⟨before, diagnostic, after, cause, rfl, hbefore, hflaw⟩
      · exact .inl (List.forall_mem_cons.mpr ⟨hfirst, hnone⟩)
      · exact .inr ⟨first :: before, diagnostic, after, cause, rfl,
          List.forall_mem_cons.mpr ⟨hfirst, hbefore⟩, hflaw⟩

end Diagnostic

/-- Where a diagnostic can be worded, there is a notice with its message. -/
theorem Notice.exists_ofDiagnostic {diagnostic : Diagnostic} (h : diagnostic.kind.flaw? = none)
    (codec : Codec) (index : LineIndex) (lines : List Text) :
    ∃ notice, ofDiagnostic codec index lines diagnostic = .ok notice ∧
      diagnostic.message = .ok notice.message := by
  obtain ⟨message, hmessage, -⟩ := Diagnostic.exists_worded h
  rw [ofDiagnostic, hmessage]
  exact ⟨_, rfl, rfl⟩

theorem Notice.ofDiagnostic_of_flaw? {diagnostic : Diagnostic} {cause : Template.Error}
    (h : diagnostic.kind.flaw? = some cause) (codec : Codec) (index : LineIndex)
    (lines : List Text) : ofDiagnostic codec index lines diagnostic = .error cause := by
  rw [ofDiagnostic, Diagnostic.message_of_flaw? h]
  rfl

/-! ### What the command prints -/

/-- The listings that the command prints before all else, if they are asked for. -/
def shown (options : Options) (source : Text) : String :=
  if options.debug then listings (Compilation.ofText source) else ""

section

variable {options : Options} {source : Text}

theorem executeText_of_ok {automaton : Automaton}
    (h : (Compilation.ofText source).unwrap options.input.toString = .ok automaton) :
    executeText options source =
      (if options.check then approval options else runAutomaton options automaton).after
        (shown options source) := by
  rw [executeText, h]
  rfl

theorem executeText_of_faulty {report : String}
    (h : (Compilation.ofText source).unwrap options.input.toString = .error (.faulty report)) :
    executeText options source =
      { stdout := "", stderr := shown options source ++ (report ++ "\n"), ending := .code 1 } := by
  rw [executeText, h]
  rfl

theorem executeText_of_unprintable {cause : Template.Error}
    (h : (Compilation.ofText source).unwrap options.input.toString =
      .error (.unprintable cause)) :
    executeText options source =
      { stdout := "", stderr := shown options source,
        ending := .failed (.unprintable cause) } := by
  rw [executeText, h]
  show Transcript.mk "" (shown options source ++ "") _ = _
  rw [String.append_empty]

end

/-- An end that tells of no fault of the program. -/
def Ending.Clean (ending : Ending) : Prop :=
  ending ≠ .code 1 ∧ ∀ cause, ending ≠ .failed (.unprintable cause)

theorem Ending.clean_code {value : Nat} (h : value ≠ 1) : (Ending.code value).Clean := by
  refine ⟨fun hcode => h (Ending.code.inj hcode), fun cause hfailed => ?_⟩
  cases hfailed

theorem runAutomaton_clean (options : Options) (automaton : Automaton) :
    (runAutomaton options automaton).ending.Clean := by
  unfold runAutomaton
  split
  · refine ⟨fun hcode => ?_, fun cause hfailed => ?_⟩
    · cases hcode
    · cases hfailed
  · unfold verdict
    dsimp only [Transcript.after]
    split
    · exact Ending.clean_code (by decide)
    · exact Ending.clean_code (by decide)

/-! ### The three outcomes -/

namespace Compilation

/-- Nothing is wrong: the automaton is there and runs, and an editor has nothing to show. -/
structure Accepted (source : Text) : Prop where
  diagnostics : (ofText source).diagnostics = []
  automaton : ∃ automaton, (ofText source).automaton = some automaton ∧
    (∀ filename, (ofText source).unwrap filename = .ok automaton) ∧
    ∀ (files : Files) (options : Options), files.readText options.input = .ok source →
      execute files options =
        (if options.check then approval options else runAutomaton options automaton).after
          (shown options source)
  clean : ∀ (files : Files) (options : Options), files.readText options.input = .ok source →
    (execute files options).ending.Clean
  notices : ∀ codec, Notice.ofText codec source = .ok []

/-- A report has one excerpt for each diagnostic, headed by its message and the name of the file, in
order and with a blank line between them. -/
def Reports (source : Text) (filename report : String) : Prop :=
  ∃ excerpts, report = String.intercalate "\n\n" excerpts ∧
    List.Forall₂ (fun diagnostic text =>
      diagnostic.excerpt (LineIndex.ofText source) filename = .ok text ∧
        diagnostic.HeadedBy source filename text) (ofText source).diagnostics excerpts

/-- Something is wrong, and all of it can be worded: the report says so, and an editor shows the
same messages. -/
structure Reported (source : Text) : Prop where
  faulty : (ofText source).diagnostics ≠ []
  flawless : ∀ diagnostic ∈ (ofText source).diagnostics, diagnostic.kind.flaw? = none
  worded : ∀ diagnostic ∈ (ofText source).diagnostics,
    ∃ message, diagnostic.message = .ok message ∧ diagnostic.Worded message
  unwrap : ∀ filename, ∃ report, Reports source filename report ∧
    (ofText source).unwrap filename = .error (.faulty report)
  execute : ∀ (files : Files) (options : Options), files.readText options.input = .ok source →
    ∃ report, Reports source options.input.toString report ∧
      execute files options =
        { stdout := "", stderr := shown options source ++ (report ++ "\n"), ending := .code 1 }
  notices : ∀ codec, ∃ notices, Notice.ofText codec source = .ok notices ∧
    List.Forall₂ (fun diagnostic notice => diagnostic.message = .ok notice.message)
      (ofText source).diagnostics notices

/-- Something is wrong that cannot be worded: the flaw of the first such template ends everything,
and nothing is told. -/
structure EndedBy (source : Text) (cause : Template.Error) : Prop where
  first : ∃ before diagnostic after, (ofText source).diagnostics = before ++ diagnostic :: after ∧
    (∀ earlier ∈ before, earlier.kind.flaw? = none) ∧ diagnostic.kind.flaw? = some cause ∧
    ∀ value, Template.fill value diagnostic.kind.template.toList = .error cause
  unwrap : ∀ filename, (ofText source).unwrap filename = .error (.unprintable cause)
  execute : ∀ (files : Files) (options : Options), files.readText options.input = .ok source →
    execute files options =
      { stdout := "", stderr := shown options source, ending := .failed (.unprintable cause) }
  notices : ∀ codec, Notice.ofText codec source = .error cause

/-- Something is wrong that cannot be worded. -/
def Unwordable (source : Text) : Prop :=
  ∃ cause, EndedBy source cause

theorem source_ofText (source : Text) : (ofText source).source = source := by
  unfold ofText
  dsimp only
  split <;> rfl

/-- With diagnostics there is the report on them and no automaton. -/
theorem unwrap_of_report {source : Text} (h : (ofText source).diagnostics ≠ [])
    {filename report : String}
    (hreport : Diagnostic.report (ofText source).diagnostics source filename = .ok report) :
    (ofText source).unwrap filename = .error (.faulty report) := by
  unfold unwrap
  split
  · contradiction
  · simp only [source_ofText, hreport]

theorem unwrap_of_no_report {source : Text} (h : (ofText source).diagnostics ≠ [])
    {filename : String} {cause : Template.Error}
    (hreport : Diagnostic.report (ofText source).diagnostics source filename = .error cause) :
    (ofText source).unwrap filename = .error (.unprintable cause) := by
  unfold unwrap
  split
  · contradiction
  · simp only [source_ofText, hreport]

theorem accepted_of_diagnostics {source : Text} (h : (ofText source).diagnostics = []) :
    Accepted source := by
  obtain ⟨automaton, hautomaton, -⟩ := exists_wellFormed_of_ok (ok_of_diagnostics h)
  have hunwrap : ∀ filename, (ofText source).unwrap filename = .ok automaton := by
    intro filename
    simp only [unwrap, hautomaton, h]
  refine ⟨h, ⟨automaton, hautomaton, hunwrap, fun files options hread => ?_⟩,
    fun files options hread => ?_, fun codec => ?_⟩
  · rw [execute_of_readText hread, executeText_of_ok (hunwrap _)]
  · rw [execute_of_readText hread, executeText_of_ok (hunwrap _)]
    by_cases hcheck : options.check
    · rw [if_pos hcheck]
      exact Ending.clean_code (by decide)
    · rw [if_neg hcheck]
      exact runAutomaton_clean options automaton
  · rw [Notice.ofText, h]
    rfl

theorem reported_of_flawless {source : Text} (hfaulty : (ofText source).diagnostics ≠ [])
    (h : ∀ diagnostic ∈ (ofText source).diagnostics, diagnostic.kind.flaw? = none) :
    Reported source := by
  have hunwrap : ∀ filename, ∃ report, Reports source filename report ∧
      (ofText source).unwrap filename = .error (.faulty report) := by
    intro filename
    obtain ⟨excerpts, hexcerpts, hall⟩ := exists_mapM_eq_ok fun diagnostic hmem =>
      Diagnostic.exists_excerpt (h diagnostic hmem) source filename
    refine ⟨String.intercalate "\n\n" excerpts, ⟨excerpts, rfl, hall⟩, ?_⟩
    apply unwrap_of_report hfaulty
    rw [Diagnostic.report, hexcerpts]
    rfl
  refine ⟨hfaulty, h, fun diagnostic hmem => Diagnostic.exists_worded (h diagnostic hmem), hunwrap,
    fun files options hread => ?_, fun codec => ?_⟩
  · obtain ⟨report, hreport, hreject⟩ := hunwrap options.input.toString
    refine ⟨report, hreport, ?_⟩
    rw [execute_of_readText hread, executeText_of_faulty hreject]
  · obtain ⟨notices, hnotices, hall⟩ := exists_mapM_eq_ok fun diagnostic hmem =>
      Notice.exists_ofDiagnostic (h diagnostic hmem) codec (LineIndex.ofText source)
        (source.splitOn '\n')
    exact ⟨notices, hnotices, hall.imp fun _ _ hnotice => hnotice.2⟩

theorem endedBy_of_flaw? {source : Text} {before after : List Diagnostic} {diagnostic : Diagnostic}
    {cause : Template.Error} (h : (ofText source).diagnostics = before ++ diagnostic :: after)
    (hbefore : ∀ earlier ∈ before, earlier.kind.flaw? = none)
    (hflaw : diagnostic.kind.flaw? = some cause) : EndedBy source cause := by
  have hfaulty : (ofText source).diagnostics ≠ [] := by simp [h]
  have hunwrap : ∀ filename, (ofText source).unwrap filename = .error (.unprintable cause) := by
    intro filename
    have hexcerpts : (before ++ diagnostic :: after).mapM
        (·.excerpt (LineIndex.ofText source) filename) = .error cause :=
      mapM_eq_error (fun earlier hmem => Diagnostic.exists_excerpt (hbefore earlier hmem) _ _)
        (Diagnostic.excerpt_of_flaw? hflaw _ _)
    apply unwrap_of_no_report hfaulty
    rw [Diagnostic.report, h, hexcerpts]
    rfl
  refine ⟨⟨before, diagnostic, after, h, hbefore, hflaw, Diagnostic.Kind.fill_of_flaw? hflaw⟩,
    hunwrap, fun files options hread => ?_, fun codec => ?_⟩
  · rw [execute_of_readText hread, executeText_of_unprintable (hunwrap _)]
  · rw [Notice.ofText, h]
    exact mapM_eq_error (fun earlier hmem =>
      Notice.exists_ofDiagnostic (hbefore earlier hmem) codec _ _)
      (Notice.ofDiagnostic_of_flaw? hflaw codec _ _)

theorem Unwordable.exists_flaw? {source : Text} (h : Unwordable source) :
    ∃ diagnostic ∈ (ofText source).diagnostics, diagnostic.kind.flaw? ≠ none := by
  obtain ⟨cause, hended⟩ := h
  obtain ⟨before, diagnostic, after, hdiagnostics, -, hflaw, -⟩ := hended.first
  refine ⟨diagnostic, ?_, ?_⟩
  · rw [hdiagnostics]
    simp
  · rw [hflaw]
    exact Option.some_ne_none cause

/-- Whatever the source, all who ask about it are told the same: it is accepted, or it is reported
on in the same words and the same order, or the same flaw ends everything; and it is only one of
these. -/
theorem exactly_one_outcome (source : Text) :
    (Accepted source ∧ ¬ Reported source ∧ ¬ Unwordable source) ∨
      (¬ Accepted source ∧ Reported source ∧ ¬ Unwordable source) ∨
      (¬ Accepted source ∧ ¬ Reported source ∧ Unwordable source) := by
  by_cases hdiagnostics : (ofText source).diagnostics = []
  · refine .inl ⟨accepted_of_diagnostics hdiagnostics, fun h => h.faulty hdiagnostics, fun h => ?_⟩
    obtain ⟨diagnostic, hmem, -⟩ := h.exists_flaw?
    rw [hdiagnostics] at hmem
    cases hmem
  · have hrejected : ¬ Accepted source := fun h => hdiagnostics h.diagnostics
    rcases Diagnostic.exists_first_flaw (ofText source).diagnostics with
      hnone | ⟨before, diagnostic, after, cause, heq, hbefore, hflaw⟩
    · refine .inr (.inl ⟨hrejected, reported_of_flawless hdiagnostics hnone, fun h => ?_⟩)
      obtain ⟨diagnostic, hmem, hflaw⟩ := h.exists_flaw?
      exact hflaw (hnone diagnostic hmem)
    · have hunwordable : Unwordable source := ⟨cause, endedBy_of_flaw? heq hbefore hflaw⟩
      refine .inr (.inr ⟨hrejected, fun h => ?_, hunwordable⟩)
      obtain ⟨diagnostic, hmem, hflaw⟩ := hunwordable.exists_flaw?
      exact hflaw (h.flawless diagnostic hmem)

/-- A brace in a value is no brace of the template. -/
example : (Notice.ofText Encoding.utf16.codec
    "initial state s \x7b '\x7b'/'a',R->self '\x7b'/'b',L->self \x7d".toList).map
      (List.map Notice.message) =
    .ok ["case character '\x7b' cannot exist more than once in the same state"] := by
  decide +kernel

end Compilation

end TapeMachine
