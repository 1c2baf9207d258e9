import Mathlib.Data.ENat.Lattice
import TapeMachine.Proofs.Machine.Steps
import TapeMachine.Proofs.Tape.Ideal

/-!
# TapeMachine.Proofs.Machine.Turing

A run is a run of the Turing machine on a tape without ends.

* `Config` — an ideal tape and the name of a state.
* `Automaton.next?`, `Automaton.after?` — one transition, and a number of them.
* `Automaton.lifetime` — how many transitions there are until no case applies.
* `Machine.Follows` — a machine is where a configuration is.
* `Machine.Refines` — what a run is, told by the transitions.

The step lemma is `Follows.advance`. Both loop lemmas say how `advanceWhileRunning` ends as an
update of the machine it began with, so that they also tell which fields stay as they were.
-/

namespace TapeMachine

/-- A configuration of the Turing machine. -/
structure Config where
  /-- The tape. -/
  tape : IdealTape
  /-- The name of the current state. -/
  state : String

/-- The configuration that a case leads to. -/
def Config.follow (config : Config) (case : Case) : Config :=
  { tape := (config.tape.write case.replacement).move case.direction, state := case.target }

namespace Automaton

variable {automaton : Automaton} {config next final : Config}

/-- The configuration in which a text is given to an automaton. -/
def initialConfig (automaton : Automaton) (content : Text) : Config :=
  { tape := IdealTape.ofText content, state := automaton.initial }

/-- The case that applies in a configuration. -/
def caseAt? (automaton : Automaton) (config : Config) : Option Case :=
  automaton.case? config.state config.tape.current

/-- One transition, if a case applies. -/
def next? (automaton : Automaton) (config : Config) : Option Config :=
  (automaton.caseAt? config).map config.follow

/-- Exactly so many transitions, if there are as many. -/
def after? (automaton : Automaton) : Nat → Config → Option Config
  | 0, config => some config
  | count + 1, config => (automaton.next? config).bind (automaton.after? count)

/-- No case applies after exactly so many transitions. -/
def HaltsAfter (automaton : Automaton) (count : Nat) (config : Config) : Prop :=
  ∃ final, automaton.after? count config = some final ∧ automaton.next? final = none

/-- The number of transitions until no case applies, infinite if one always does. -/
noncomputable def lifetime (automaton : Automaton) (config : Config) : ℕ∞ :=
  ⨅ (count : Nat) (_ : automaton.HaltsAfter count config), (count : ℕ∞)

/-- The symbols that a number of transitions write. -/
def written (automaton : Automaton) : Nat → Config → List String
  | 0, _ => []
  | count + 1, config =>
    match automaton.caseAt? config with
    | some case => case.replacement :: automaton.written count (config.follow case)
    | none => []

/-! ### Counting transitions -/

theorem after?_succ (h : automaton.next? config = some next) (count : Nat) :
    automaton.after? (count + 1) config = automaton.after? count next := by
  rw [after?, h]
  rfl

theorem exists_next?_of_after?_succ {count : Nat}
    (h : automaton.after? (count + 1) config = some final) :
    ∃ next, automaton.next? config = some next ∧ automaton.after? count next = some final := by
  rw [after?] at h
  exact Option.bind_eq_some_iff.mp h

/-- Transitions run out, or there are as many as one likes. -/
theorem haltsAfter_or_after? (automaton : Automaton) (limit : Nat) (config : Config) :
    (∃ count < limit, automaton.HaltsAfter count config) ∨
      ∃ final, automaton.after? limit config = some final := by
  induction limit generalizing config with
  | zero => exact Or.inr ⟨config, rfl⟩
  | succ limit ih =>
    cases hnext : automaton.next? config with
    | none => exact Or.inl ⟨0, Nat.succ_pos limit, config, rfl, hnext⟩
    | some next =>
      rcases ih next with ⟨count, hcount, final, hafter, hnone⟩ | ⟨final, hafter⟩
      · refine Or.inl ⟨count + 1, Nat.succ_lt_succ hcount, final, ?_, hnone⟩
        rw [after?_succ hnext, hafter]
      · exact Or.inr ⟨final, by rw [after?_succ hnext, hafter]⟩

/-- There are no transitions beyond the halt. -/
theorem HaltsAfter.le {count limit : Nat} (h : automaton.HaltsAfter count config)
    (hafter : automaton.after? limit config = some final) : limit ≤ count := by
  induction limit generalizing count config with
  | zero => exact Nat.zero_le count
  | succ limit ih =>
    obtain ⟨next, hnext, hrest⟩ := exists_next?_of_after?_succ hafter
    obtain ⟨last, hlast, hnone⟩ := h
    cases count with
    | zero =>
      obtain rfl := Option.some.inj hlast
      rw [hnext] at hnone
      cases hnone
    | succ count =>
      rw [after?_succ hnext] at hlast
      exact Nat.succ_le_succ (ih ⟨last, hlast, hnone⟩ hrest)

theorem lifetime_eq_of_haltsAfter {count : Nat} (h : automaton.HaltsAfter count config) :
    automaton.lifetime config = count := by
  apply le_antisymm
  · exact iInf₂_le count h
  · refine le_iInf₂ fun other hother => ?_
    obtain ⟨final, hafter, -⟩ := h
    exact ENat.natCast_le_natCast.mpr (hother.le hafter)

theorem le_lifetime_of_after? {limit : Nat} (h : automaton.after? limit config = some final) :
    limit ≤ automaton.lifetime config :=
  le_iInf₂ fun _ hcount => ENat.natCast_le_natCast.mpr (hcount.le h)

/-! ### Cells of one character -/

/-- If only single characters are written, then every cell keeps holding one. -/
theorem lettered_of_after? {count : Nat} (hconfig : config.tape.Lettered)
    (hwritten : ∀ symbol ∈ automaton.written count config, symbol.length = 1)
    (hafter : automaton.after? count config = some final) : final.tape.Lettered := by
  induction count generalizing config with
  | zero =>
    obtain rfl := Option.some.inj hafter
    exact hconfig
  | succ count ih =>
    obtain ⟨next, hnext, hrest⟩ := exists_next?_of_after?_succ hafter
    obtain ⟨case, hcase, rfl⟩ := Option.map_eq_some_iff.mp hnext
    rw [written, hcase] at hwritten
    have hsymbol := hwritten case.replacement List.mem_cons_self
    have hfollow : (config.follow case).tape.Lettered :=
      (hconfig.write hsymbol).move case.direction
    exact ih hfollow (fun symbol hmem => hwritten symbol (List.mem_cons_of_mem _ hmem)) hrest

end Automaton

namespace Machine

variable {σ ε : Type} {machine : Machine} {config next final : Config}

/-- A machine is in the state of a configuration and its tape shows the one there. -/
structure Follows (machine : Machine) (config : Config) : Prop where
  /-- The states are the same. -/
  state : machine.state = config.state
  /-- The tape shows the ideal one. -/
  tape : machine.tape.Shows config.tape

namespace Follows

theorem case?_eq (h : machine.Follows config) :
    machine.automaton.case? machine.state machine.tape.head = machine.automaton.caseAt? config := by
  rw [Automaton.caseAt?, h.state, h.tape.current]

/-- A step follows a transition and changes the tape, the state and the count only. -/
theorem advance (h : machine.Follows config) (hidle : machine.Idle)
    (hnext : machine.automaton.next? config = some next) :
    ∃ tape, tape.Shows next.tape ∧
      machine.advance.1 =
        { machine with tape, state := next.state, steps := machine.steps + 1 } := by
  obtain ⟨case, hcase, rfl⟩ := Option.map_eq_some_iff.mp hnext
  refine ⟨_, (h.tape.write case.replacement).move case.direction, ?_⟩
  rw [advance_of_case hidle (h.case?_eq.trans hcase)]
  rfl

/-- Where there is no transition, a step halts. -/
theorem advance_of_next?_none (h : machine.Follows config) (hidle : machine.Idle)
    (hnext : machine.automaton.next? config = none) :
    machine.advance.1 = { machine with halted := true, status := .stopped } := by
  have hcase := Option.map_eq_none_iff.mp hnext
  rw [advance_of_no_case hidle (h.case?_eq.trans hcase)]

/-- With as many transitions as steps allowed, the loop takes all of these and pauses. -/
theorem advanceWhileRunning_of_after? {limit : Nat} (h : machine.Follows config)
    (hidle : machine.Idle) (hrunning : machine.status = .running)
    (hafter : machine.automaton.after? limit config = some final) (taken : Nat) :
    ∃ tape, tape.Shows final.tape ∧
      advanceWhileRunning limit taken machine =
        ({ machine with
            tape
            state := final.state
            steps := machine.steps + limit
            status := .paused },
          taken + limit) := by
  induction limit generalizing machine config taken with
  | zero =>
    obtain rfl := Option.some.inj hafter
    refine ⟨machine.tape, h.tape, ?_⟩
    rw [advanceWhileRunning, if_pos hrunning, ← h.state]
    rfl
  | succ limit ih =>
    -- one step, and the rest of the loop from the machine it leaves
    obtain ⟨next, hnext, hrest⟩ := Automaton.exists_next?_of_after?_succ hafter
    obtain ⟨tape, htape, hadvance⟩ := h.advance hidle hnext
    rw [advanceWhileRunning, if_pos hrunning, hadvance]
    obtain ⟨last, hlast, hloop⟩ := @ih
      { machine with tape, state := next.state, steps := machine.steps + 1 } next
      ⟨rfl, htape⟩ ⟨hidle.free, hidle.settled⟩ hrunning hrest (taken + 1)
    refine ⟨last, hlast, ?_⟩
    rw [hloop, Nat.add_assoc, Nat.add_assoc, Nat.add_comm 1 limit]

/-- With fewer, it takes them all and one step more, in which it halts. -/
theorem advanceWhileRunning_of_halt {count limit : Nat} (h : machine.Follows config)
    (hidle : machine.Idle) (hrunning : machine.status = .running)
    (hafter : machine.automaton.after? count config = some final)
    (hnone : machine.automaton.next? final = none) (hcount : count < limit) (taken : Nat) :
    ∃ tape, tape.Shows final.tape ∧
      advanceWhileRunning limit taken machine =
        ({ machine with
            tape
            state := final.state
            steps := machine.steps + count
            halted := true
            status := .stopped },
          taken + count + 1) := by
  induction limit generalizing machine config count taken with
  | zero => exact absurd hcount (Nat.not_lt_zero count)
  | succ limit ih =>
    rw [advanceWhileRunning, if_pos hrunning]
    cases count with
    | zero =>
      obtain rfl := Option.some.inj hafter
      refine ⟨machine.tape, h.tape, ?_⟩
      rw [h.advance_of_next?_none hidle hnone, ← h.state]
      -- a stopped machine takes no step, whether the limit is reached or not
      cases limit <;> rfl
    | succ count =>
      obtain ⟨next, hnext, hrest⟩ := Automaton.exists_next?_of_after?_succ hafter
      obtain ⟨tape, htape, hadvance⟩ := h.advance hidle hnext
      rw [hadvance]
      obtain ⟨last, hlast, hloop⟩ := @ih
        { machine with tape, state := next.state, steps := machine.steps + 1 } next count
        ⟨rfl, htape⟩ ⟨hidle.free, hidle.settled⟩ hrunning hrest hnone
        (Nat.lt_of_succ_lt_succ hcount) (taken + 1)
      refine ⟨last, hlast, ?_⟩
      rw [hloop, Nat.add_assoc machine.steps, Nat.add_assoc taken, Nat.add_comm 1 count]

end Follows

/-- What a run of at most `limit` steps from the start is, told by the transitions of the automaton
on the content of the tape. -/
structure Refines (automaton : Automaton) (content : Text) (limit : Nat)
    (outcome : Outcome σ ε Nat) : Prop where
  /-- If transitions run out before the limit, then the run halts in the step after the last. -/
  halts : automaton.lifetime (automaton.initialConfig content) < limit →
    ∃ count : Nat, automaton.lifetime (automaton.initialConfig content) = count ∧
      outcome.result = .ok (count + 1) ∧ outcome.machine.halted = true ∧
      outcome.machine.status = .stopped ∧ outcome.machine.steps = count
  /-- If they do not, then the run is paused at the limit. -/
  pauses : limit ≤ automaton.lifetime (automaton.initialConfig content) →
    outcome.result = .ok limit ∧ outcome.machine.halted = false ∧
      outcome.machine.status = .paused ∧ outcome.machine.steps = limit
  /-- The machine is where as many transitions as it counted steps lead, and if these wrote single
  characters only, then its content is what the tape there spells. -/
  follows : ∃ config,
    automaton.after? outcome.machine.steps (automaton.initialConfig content) = some config ∧
      outcome.machine.Follows config ∧
      ((∀ symbol ∈ automaton.written outcome.machine.steps (automaton.initialConfig content),
          symbol.length = 1) →
        config.tape.Spells outcome.machine.tape.snapshot.content)

/-- A machine that follows its transitions has the content that they leave. -/
theorem Follows.spells_content {automaton : Automaton} {content : Text} {count : Nat}
    (h : machine.Follows final)
    (hafter : automaton.after? count (automaton.initialConfig content) = some final)
    (hwritten : ∀ symbol ∈ automaton.written count (automaton.initialConfig content),
      symbol.length = 1) :
    final.tape.Spells machine.tape.snapshot.content := by
  have hinitial : (automaton.initialConfig content).tape.Lettered :=
    IdealTape.lettered_ofText content
  exact h.tape.spells_content (Automaton.lettered_of_after? hinitial hwritten hafter)

/-- There is a machine for every automaton with its initial state and every margin from one on. -/
theorem exists_margin_build_eq {automaton : Automaton} {width : Int}
    (hinitial : automaton.initialState?.isSome = true) (hwidth : 1 ≤ width) :
    ∃ margin, ∀ content, build automaton width content = .ok (start automaton margin content) := by
  obtain ⟨state, hstate⟩ := Option.isSome_iff_exists.mp hinitial
  refine ⟨{ width := width.toNat, positive := by omega }, fun content => ?_⟩
  simp [build, hstate, Margin.ofInt?, hwidth]

theorem exists_build_eq {automaton : Automaton} {width : Int}
    (hinitial : automaton.initialState?.isSome = true) (hwidth : 1 ≤ width) (content : Text) :
    ∃ margin, build automaton width content = .ok (start automaton margin content) := by
  obtain ⟨margin, hbuild⟩ := exists_margin_build_eq hinitial hwidth
  exact ⟨margin, hbuild content⟩

/-- A run without callbacks of a new machine is a run of the Turing machine. -/
theorem run_refines_turing {automaton : Automaton} {width : Int}
    (hinitial : automaton.initialState?.isSome = true) (hwidth : 1 ≤ width) (content : Text)
    (limit : Nat) (host : σ) :
    ∃ machine, build automaton width content = .ok machine ∧
      Refines automaton content limit
        (run (Hooks.silent : Hooks σ ε) limit machine host) := by
  obtain ⟨margin, hbuild⟩ := exists_build_eq hinitial hwidth content
  refine ⟨start automaton margin content, hbuild, ?_⟩
  have hidle := (idle_start automaton margin content).withStatus .running
  have hfollows : { start automaton margin content with status := .running }.Follows
      (automaton.initialConfig content) :=
    ⟨rfl, Tape.shows_ofText margin content⟩
  rw [run_silent (idle_start automaton margin content).free, Int.toNat_natCast]
  -- either transitions run out before the limit or there are as many as the limit says
  rcases automaton.haltsAfter_or_after? limit (automaton.initialConfig content) with
    ⟨count, hcount, final, hafter, hnone⟩ | ⟨final, hafter⟩
  · have hlifetime := Automaton.lifetime_eq_of_haltsAfter ⟨final, hafter, hnone⟩
    obtain ⟨tape, htape, hloop⟩ :=
      hfollows.advanceWhileRunning_of_halt hidle rfl hafter hnone hcount 0
    have hsteps : (start automaton margin content).steps + count = count := Nat.zero_add count
    rw [hloop, Nat.zero_add, hsteps]
    -- here the limit is above the lifetime, so that the case of a pause is excluded
    refine ⟨fun _ => ⟨count, hlifetime, rfl, rfl, rfl, rfl⟩, fun hlimit => ?_,
      final, hafter, ⟨rfl, htape⟩, Follows.spells_content ⟨rfl, htape⟩ hafter⟩
    rw [hlifetime, ENat.natCast_le_natCast] at hlimit
    omega
  · have hlifetime := Automaton.le_lifetime_of_after? hafter
    obtain ⟨tape, htape, hloop⟩ := hfollows.advanceWhileRunning_of_after? hidle rfl hafter 0
    have hsteps : (start automaton margin content).steps + limit = limit := Nat.zero_add limit
    rw [hloop, Nat.zero_add, hsteps]
    exact ⟨fun hlimit => absurd hlifetime (not_le_of_gt hlimit), fun _ => ⟨rfl, rfl, rfl, rfl⟩,
      final, hafter, ⟨rfl, htape⟩, Follows.spells_content ⟨rfl, htape⟩ hafter⟩

/-- Goes left over its letter, leaves a mark, and turns to a state that does not exist. -/
def marker : Automaton :=
  { initial := "seek"
    states :=
      [("seek",
        [("a", { replacement := "b", direction := .left, target := "seek" }),
          (" ", { replacement := "x", direction := .right, target := "gone" })])] }

theorem run_refines_turing_marker :
    marker.initialState?.isSome = true ∧ (1 : Int) ≤ 1 ∧
      marker.lifetime (marker.initialConfig ['a']) = (2 : Nat) ∧
      (∀ symbol ∈ marker.written 2 (marker.initialConfig ['a']), symbol.length = 1) ∧
      ∃ machine, build marker 1 ['a'] = .ok machine ∧
        Refines marker ['a'] 5 (run (Hooks.silent : Hooks Unit Empty) (5 : Nat) machine ()) := by
  have hhalts : marker.HaltsAfter 2 (marker.initialConfig ['a']) := ⟨_, rfl, rfl⟩
  exact ⟨by decide, by decide, Automaton.lifetime_eq_of_haltsAfter hhalts, by decide +kernel,
    run_refines_turing (by decide) (by decide) ['a'] 5 ()⟩

end Machine

end TapeMachine
