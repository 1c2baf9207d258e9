import TapeMachine.Command.Execute
import TapeMachine.Proofs.Machine.Pacing
import TapeMachine.Proofs.Machine.Turing
import TapeMachine.Proofs.Program.Closure

/-!
# TapeMachine.Proofs.Command.Verdict

The command tells what the Turing machine computes, and nothing else is its result.

* `Result` — where a computation is when it halts or is cut off.
* `Result.IsOf` — the result of an automaton on a text, told by its transitions. There is only one
  (`Result.IsOf.unique`).
* `Result.told` — what the command says about it.
* `Tells` — what a use of the command has to say about a program.

Margin, trace and listings have no say in `Tells`. That they do not matter comes down to three
facts: callbacks that only write lines are passive, so the run is the one without them; the tape
shows the ideal one whatever its margin; and an ideal tape spells one text.
-/

namespace TapeMachine

/-- Where a computation is when it halts, or when it is cut off. -/
structure Result where
  /-- The number of transitions. -/
  count : Nat
  /-- The name of the state. -/
  state : String
  /-- The text on the tape, without the blanks around it. -/
  text : Text
  /-- Whether no case applied before it was cut off. -/
  halted : Bool

namespace Result

variable {automaton : Automaton} {content : Text} {limit : Nat}

/-- The result of an automaton on a text, cut off after `limit` transitions. -/
structure IsOf (automaton : Automaton) (content : Text) (limit : Nat) (result : Result) : Prop where
  /-- It made as many transitions as there are, up to the limit. -/
  count : (result.count : ℕ∞) = min (automaton.lifetime (automaton.initialConfig content)) limit
  /-- These lead to the state and to a tape with the text. -/
  reached : ∃ config,
    automaton.after? result.count (automaton.initialConfig content) = some config ∧
      config.state = result.state ∧ config.tape.Spells result.text
  /-- It halted if there are fewer transitions than the limit. -/
  halted : result.halted = true ↔ automaton.lifetime (automaton.initialConfig content) < limit

theorem IsOf.unique {left right : Result} (hleft : left.IsOf automaton content limit)
    (hright : right.IsOf automaton content limit) : left = right := by
  have hcount : left.count = right.count :=
    ENat.natCast_inj.mp (hleft.count.trans hright.count.symm)
  obtain ⟨config, hafter, hstate, hspells⟩ := hleft.reached
  obtain ⟨other, hother, hstate', hspells'⟩ := hright.reached
  rw [hcount, hother] at hafter
  obtain rfl := Option.some.inj hafter
  have hhalted : left.halted = right.halted :=
    Bool.eq_iff_iff.mpr (hleft.halted.trans hright.halted.symm)
  cases left
  cases right
  simp only [Result.mk.injEq]
  exact ⟨hcount, hstate.symm.trans hstate', hspells.unique hspells', hhalted⟩

/-- What the command says about a result. -/
def told (result : Result) : Transcript :=
  { stdout := String.ofList result.text ++ "\n"
    stderr :=
      if result.halted then
        "halted in state " ++ result.state ++ " after " ++ toString result.count ++ " steps\n"
      else
        "stopped after " ++ toString result.count ++ " steps without halting (state "
          ++ result.state ++ ")\n"
    ending := .code (if result.halted then 0 else 2) }

/-- The result that a machine shows. -/
def ofMachine (machine : Machine) : Result :=
  { count := machine.steps
    state := machine.state
    text := machine.tape.snapshot.content
    halted := machine.halted }

end Result

theorem verdict_eq_told (machine : Machine) : verdict machine = (Result.ofMachine machine).told := by
  unfold verdict Result.told Result.ofMachine
  cases machine.halted <;> rfl

/-! ### Running -/

/-- A well-formed automaton writes single characters. -/
theorem Automaton.WellFormed.length_written {automaton : Automaton} (h : automaton.WellFormed)
    (count : Nat) (config : Config) :
    ∀ symbol ∈ automaton.written count config, symbol.length = 1 := by
  induction count generalizing config with
  | zero => exact fun _ hmem => absurd hmem List.not_mem_nil
  | succ count ih =>
    cases hcase : automaton.caseAt? config with
    | none =>
      rw [written, hcase]
      exact fun _ hmem => absurd hmem List.not_mem_nil
    | some case =>
      rw [written, hcase]
      exact List.forall_mem_cons.mpr ⟨(h.of_case? hcase).1, ih (config.follow case)⟩

/-- Whatever the margin, a run from the start shows the result of the automaton. -/
theorem Result.isOf_run {automaton : Automaton} (h : automaton.WellFormed) (margin : Margin)
    (content : Text) (limit : Nat) :
    (ofMachine (Machine.advanceWhileRunning limit 0
      { Machine.start automaton margin content with status := .running }).1).IsOf
        automaton content limit := by
  have hidle := (Machine.idle_start automaton margin content).withStatus .running
  have hfollows : { Machine.start automaton margin content with status := .running }.Follows
      (automaton.initialConfig content) :=
    ⟨rfl, Tape.shows_ofText margin content⟩
  have hspells : ∀ {machine : Machine} {count final}, machine.Follows final →
      automaton.after? count (automaton.initialConfig content) = some final →
        final.tape.Spells machine.tape.snapshot.content :=
    fun hmachine hafter => hmachine.spells_content hafter (h.length_written _ _)
  rcases automaton.haltsAfter_or_after? limit (automaton.initialConfig content) with
    ⟨count, hcount, final, hafter, hnone⟩ | ⟨final, hafter⟩
  · have hlifetime := Automaton.lifetime_eq_of_haltsAfter ⟨final, hafter, hnone⟩
    have hlt : (count : ℕ∞) < limit := ENat.natCast_lt_natCast.mpr hcount
    obtain ⟨tape, htape, hloop⟩ :=
      hfollows.advanceWhileRunning_of_halt hidle rfl hafter hnone hcount 0
    have hsteps : (Machine.start automaton margin content).steps + count = count :=
      Nat.zero_add count
    rw [hloop, hsteps]
    refine ⟨?_, ⟨final, hafter, rfl, hspells ⟨rfl, htape⟩ hafter⟩, ?_⟩
    · rw [hlifetime]
      exact (min_eq_left hlt.le).symm
    · rw [hlifetime]
      exact iff_of_true rfl hlt
  · have hlifetime := Automaton.le_lifetime_of_after? hafter
    obtain ⟨tape, htape, hloop⟩ := hfollows.advanceWhileRunning_of_after? hidle rfl hafter 0
    have hsteps : (Machine.start automaton margin content).steps + limit = limit :=
      Nat.zero_add limit
    rw [hloop, hsteps]
    refine ⟨(min_eq_right hlifetime).symm, ⟨final, hafter, rfl, hspells ⟨rfl, htape⟩ hafter⟩, ?_⟩
    exact iff_of_false Bool.false_ne_true (not_lt_of_ge hlifetime)

theorem traceHooks_passive : traceHooks.Passive := by
  intro machine lines event
  cases event <;> exact ⟨_, rfl⟩

/-- A traced run leaves the same machine as one without a trace. -/
theorem runTraced_fst (options : Options) {machine : Machine} (h : machine.busy = false) :
    (runTraced options machine).1 =
      (Machine.advanceWhileRunning options.maxSteps.value.toNat 0
        { machine with status := .running }).1 := by
  unfold runTraced
  split
  · exact (traceHooks_passive.run_eq h _ _).1
  · exact (Hooks.silent_passive.run_eq h _ _).1

theorem runTraced_snd {options : Options} (h : options.trace = false) (machine : Machine) :
    (runTraced options machine).2 = "" := by
  rw [runTraced, if_neg (by rw [h]; exact Bool.false_ne_true)]

/-- There is a machine for the automaton, and its run ends without an error, traced or not. -/
def RunsThrough (options : Options) (automaton : Automaton) : Prop :=
  ∃ machine taken, Machine.build automaton options.margin.value options.content = .ok machine ∧
    (machine.run traceHooks options.maxSteps.value ["state " ++ machine.state ++ "\n"]).result =
      .ok taken ∧
    (machine.run (Hooks.silent : Hooks Unit Empty) options.maxSteps.value ()).result = .ok taken

/-- Running an automaton tells its result, behind a trace. -/
theorem runAutomaton_eq {options : Options} {automaton : Automaton} (h : automaton.WellFormed)
    (hmargin : 1 ≤ options.margin.value) :
    RunsThrough options automaton ∧
      ∃ result trace, Result.IsOf automaton options.content options.maxSteps.value.toNat result ∧
        runAutomaton options automaton = result.told.after trace ∧
        (options.trace = false → trace = "") := by
  have hinitial : automaton.initialState?.isSome = true :=
    (Table.has_eq_true_iff _ _).mpr h.initial
  obtain ⟨margin, hbuild⟩ := Machine.exists_build_eq hinitial hmargin options.content
  have hfree := (Machine.idle_start automaton margin options.content).free
  refine ⟨⟨_, _, hbuild, (traceHooks_passive.run_eq hfree _ _).2,
    (Hooks.silent_passive.run_eq hfree _ _).2⟩, ?_⟩
  refine ⟨_, _, Result.isOf_run h margin options.content options.maxSteps.value.toNat, ?_,
    fun htrace => runTraced_snd htrace (Machine.start automaton margin options.content)⟩
  rw [runAutomaton, hbuild, ← runTraced_fst options hfree, ← verdict_eq_told]

/-! ### Compiling and running -/

theorem Transcript.after_after (first second : String) (transcript : Transcript) :
    (transcript.after second).after first = transcript.after (first ++ second) := by
  simp only [after, String.append_assoc]

/-- What the command says about a program that is only compiled. -/
def approval (options : Options) : Transcript :=
  { stdout := "", stderr := options.input.toString ++ ": ok\n", ending := .code 0 }

/-- What the command has to say about a program: that it compiles, if that was asked, or else the
result of its automaton. -/
structure Tells (source : Text) (options : Options) (told : Transcript) : Prop where
  checked : options.check = true → told = approval options
  ran : options.check = false → ∃ automaton,
    (Compilation.ofText source).automaton = some automaton ∧ RunsThrough options automaton ∧
      ∃ result, Result.IsOf automaton options.content options.maxSteps.value.toNat result ∧
        told = result.told

/-- The command says what it has to, behind listings and a trace. -/
theorem exists_tells {source : Text} {options : Options}
    (hsource : (Compilation.ofText source).diagnostics = []) (hmargin : 1 ≤ options.margin.value) :
    ∃ told before, Tells source options told ∧ executeText options source = told.after before ∧
      (options.trace = false → options.debug = false → before = "") := by
  obtain ⟨automaton, hautomaton, hwellFormed, -⟩ :=
    Compilation.exists_wellFormed_of_ok (Compilation.ok_of_diagnostics hsource)
  have hunwrap : (Compilation.ofText source).unwrap options.input.toString = .ok automaton := by
    simp only [Compilation.unwrap, hautomaton, hsource]
  obtain ⟨hruns, result, trace, hresult, hrun, htrace⟩ :=
    @runAutomaton_eq options automaton hwellFormed hmargin
  simp only [executeText, hunwrap]
  cases hcheck : options.check with
  | true =>
    refine ⟨approval options, _, ⟨fun _ => rfl, fun hrun => ?_⟩, rfl, fun _ hdebug => ?_⟩
    · rw [hcheck] at hrun
      cases hrun
    · rw [hdebug]
      rfl
  | false =>
    refine ⟨result.told, (if options.debug then listings (Compilation.ofText source) else "") ++ trace,
      ⟨fun hchecked => ?_, fun _ => ⟨automaton, hautomaton, hruns, result, hresult, rfl⟩⟩, ?_,
      fun htraced hdebug => ?_⟩
    · rw [hcheck] at hchecked
      cases hchecked
    · show (runAutomaton options automaton).after _ = _
      rw [hrun, Transcript.after_after]
    · rw [htrace htraced, hdebug]
      rfl

/-- Settings that differ at most in margin, trace and listings. -/
def Options.Alike (left right : Options) : Prop :=
  right = { left with margin := right.margin, trace := right.trace, debug := right.debug }

/-- What the command has to say does not depend on margin, trace and listings. -/
theorem Tells.eq_of_alike {source : Text} {options other : Options} {told said : Transcript}
    (h : Tells source options told) (hother : Tells source other said)
    (halike : options.Alike other) : told = said := by
  rw [Options.Alike] at halike
  have hcheck : other.check = options.check := by rw [halike]
  have hinput : other.input = options.input := by rw [halike]
  have hsteps : other.maxSteps = options.maxSteps := by rw [halike]
  have hcontent : other.content = options.content := by rw [halike]; rfl
  cases hchecked : options.check with
  | true =>
    rw [h.checked hchecked, hother.checked (hcheck.trans hchecked), approval, approval, hinput]
  | false =>
    obtain ⟨automaton, hautomaton, -, result, hresult, rfl⟩ := h.ran hchecked
    obtain ⟨same, hsame, -, outcome, houtcome, rfl⟩ := hother.ran (hcheck.trans hchecked)
    rw [hautomaton] at hsame
    obtain rfl := Option.some.inj hsame
    rw [hcontent, hsteps] at houtcome
    rw [hresult.unique houtcome]

theorem execute_of_readText {files : Files} {options : Options} {source : Text}
    (h : files.readText options.input = .ok source) :
    execute files options = executeText options source := by
  rw [execute, h]

/-- With settings that were resolved, the command tells the result of a program that compiles, and
nothing but that depends on more than the program, the content and the limit. -/
theorem execute_tells_result {args : Args} {config : Toml.Tree} {options : Options}
    (hoptions : Options.resolve args config = .ok options) {files : Files} {source : Text}
    (hread : files.readText options.input = .ok source)
    (hsource : (Compilation.ofText source).diagnostics = []) :
    1 ≤ options.margin.value ∧ 1 ≤ options.maxSteps.value ∧
      ∃ told before, Tells source options told ∧ execute files options = told.after before ∧
        (options.trace = false → options.debug = false → before = "") ∧
        ∀ (otherArgs : Args) (otherConfig : Toml.Tree) (other : Options) (otherFiles : Files),
          Options.resolve otherArgs otherConfig = .ok other → options.Alike other →
          otherFiles.readText other.input = .ok source →
            ∃ otherBefore, execute otherFiles other = told.after otherBefore := by
  have hmargin := Options.resolve_margin hoptions
  obtain ⟨told, before, htells, hexecute, hbefore⟩ := exists_tells hsource hmargin
  refine ⟨hmargin, Options.resolve_maxSteps hoptions, told, before, htells, ?_, hbefore, ?_⟩
  · rw [execute_of_readText hread, hexecute]
  · intro otherArgs otherConfig other otherFiles hother halike hotherRead
    obtain ⟨said, otherBefore, hsaid, hotherExecute, -⟩ :=
      exists_tells hsource (Options.resolve_margin hother)
    refine ⟨otherBefore, ?_⟩
    rw [execute_of_readText hotherRead, hotherExecute, htells.eq_of_alike hsaid halike]

/-- Turns letters one by one, and halts behind the last. -/
def ledge : Text :=
  "initial state s \x7b 'a'/'b',R->self \x7d".toList

/-- That program at every path. -/
def ledgeFiles : Files :=
  Files.ofNodes fun _ => .ok (.file (String.ofList ledge).toUTF8 0)

/-- Arguments that leave the limit to the configuration, and ask for a trace. -/
def ledgeArgs : Args :=
  { input := "ledge.tm"
    tape := some (.value "a")
    config := none
    maxSteps := none
    margin := some (.value 5)
    trace := true
    check := false
    watch := false
    debug := false }

/-- A configuration with a section that is none, and a truth value for the limit. -/
def ledgeConfig : Toml.Tree :=
  [("tape", .string "z"), ("run", .table [("max_steps", .boolean true)])]

/-- The settings that these make. -/
def ledgeOptions : Options :=
  { input := Path.ofString "ledge.tm"
    tape := .value "a"
    margin := .number 5
    maxSteps := .truth true
    trace := true
    check := false
    watch := false
    debug := false }

/-- The limit is reached right before the halt, so that this counts as no halt; with another margin
and listings for a trace, nothing else is said. -/
theorem execute_tells_result_ledge :
    Options.resolve ledgeArgs ledgeConfig = .ok ledgeOptions ∧
      ledgeFiles.readText ledgeOptions.input = .ok ledge ∧
      (Compilation.ofText ledge).diagnostics = [] ∧
      ∃ told before, Tells ledge ledgeOptions told ∧
        execute ledgeFiles ledgeOptions = told.after before ∧
        told.stdout = "b\n" ∧ told.ending = .code 2 ∧
        ∃ otherBefore,
          execute ledgeFiles
              { ledgeOptions with margin := .number 1, trace := false, debug := true } =
            told.after otherBefore := by
  have hoptions : Options.resolve ledgeArgs ledgeConfig = .ok ledgeOptions := rfl
  have hread : ledgeFiles.readText ledgeOptions.input = .ok ledge := rfl
  have hsource : (Compilation.ofText ledge).diagnostics = [] := by decide +kernel
  obtain ⟨-, -, told, before, htells, hexecute, -, hothers⟩ :=
    execute_tells_result hoptions hread hsource
  have hstdout : (execute ledgeFiles ledgeOptions).stdout = "b\n" := by decide +kernel
  have hending : (execute ledgeFiles ledgeOptions).ending = .code 2 := by decide +kernel
  rw [hexecute] at hstdout hending
  refine ⟨hoptions, hread, hsource, told, before, htells, hexecute, hstdout, hending, ?_⟩
  exact hothers { ledgeArgs with margin := some (.value 1), trace := false, debug := true }
    ledgeConfig _ ledgeFiles rfl rfl rfl

end TapeMachine
