import Mathlib.Data.ENat.Lattice
import Mathlib.Logic.Function.Iterate
import TapeMachine.Proofs.Machine.History

/-!
# TapeMachine.Proofs.Machine.Pacing

A run can be cut into pieces in any way.

From an idle machine on, steps without callbacks tell one story: `Machine.eventsAt` is what each of
them tells. A host that only watches can take the steps one by one or in runs with any limits. All
it can choose is how much of the story it hears (`Operation.Consumes`); what it hears, and the
machine that is left, are the same for every schedule.

* `Hooks.Passive` — callbacks that ask nothing and let no error out.
* `Machine.after`, `Machine.story` — the machine after some steps, and all that these tell.
* `Machine.stepsToHalt` — the number of steps up to the first that halts.
* `Hooks.Passive.stepWhileRunning_add` — a run goes on where its first steps lead.
* `Machine.Paceable` — what a schedule has to do with the story.

The status is the one thing that depends on the schedule. No step reads it, so a machine with
another status tells the same story (`Idle.advance_withStatus`).
-/

namespace TapeMachine

variable {σ ε : Type}

/-! ### The story of a machine -/

namespace Machine

/-- The machine after some steps without callbacks. -/
def after (machine : Machine) (count : Nat) : Machine :=
  (fun given : Machine => given.advance.1)^[count] machine

/-- The events of the step that follows so many others. -/
def eventsAt (machine : Machine) (index : Nat) : List Event :=
  (machine.after index).advance.2

/-- The events of some steps, one after the other. -/
def story (machine : Machine) (count : Nat) : List Event :=
  (List.range count).flatMap machine.eventsAt

/-- The step that follows so many others halts. -/
def HaltsAt (machine : Machine) (index : Nat) : Prop :=
  ∃ tape, machine.eventsAt index = [.finished tape]

/-- The number of steps up to the first that halts, that one included; infinite if none does. -/
noncomputable def stepsToHalt (machine : Machine) : ℕ∞ :=
  ⨅ (index : Nat) (_ : machine.HaltsAt index), ((index + 1 : Nat) : ℕ∞)

variable {machine : Machine}

theorem after_succ (machine : Machine) (count : Nat) :
    machine.after (count + 1) = machine.advance.1.after count :=
  Function.iterate_succ_apply _ _ _

theorem after_succ' (machine : Machine) (count : Nat) :
    machine.after (count + 1) = (machine.after count).advance.1 :=
  Function.iterate_succ_apply' _ _ _

theorem after_add (machine : Machine) (first count : Nat) :
    machine.after (first + count) = (machine.after first).after count := by
  rw [Nat.add_comm]
  exact Function.iterate_add_apply _ _ _ _

theorem eventsAt_add (machine : Machine) (first index : Nat) :
    machine.eventsAt (first + index) = (machine.after first).eventsAt index := by
  rw [eventsAt, after_add]
  rfl

theorem story_add (machine : Machine) (first count : Nat) :
    machine.story (first + count) = machine.story first ++ (machine.after first).story count := by
  rw [story, List.range_add, List.flatMap_append, List.flatMap_map]
  simp only [eventsAt_add]
  rfl

theorem story_one (machine : Machine) : machine.story 1 = machine.advance.2 :=
  List.append_nil _

theorem story_succ (machine : Machine) (count : Nat) :
    machine.story (count + 1) = machine.advance.2 ++ machine.advance.1.story count := by
  rw [Nat.add_comm, story_add, story_one]
  rfl

namespace Idle

theorem advance (machine : Machine) : machine.advance.1.Idle :=
  ⟨settle_busy _, settle_pending _⟩

theorem after (h : machine.Idle) (count : Nat) : (machine.after count).Idle := by
  cases count with
  | zero => exact h
  | succ count =>
    rw [after_succ']
    exact advance _

/-- A step does not read the status. -/
theorem advance_withStatus (h : machine.Idle) (status : Status) :
    ∃ other, Machine.advance { machine with status } =
      ({ machine.advance.1 with status := other }, machine.advance.2) := by
  have hother := h.withStatus status
  cases hcase : machine.automaton.case? machine.state machine.tape.head with
  | none =>
    refine ⟨.stopped, ?_⟩
    rw [advance_of_no_case h hcase, advance_of_no_case hother hcase]
  | some case =>
    refine ⟨status, ?_⟩
    rw [advance_of_case h hcase, advance_of_case hother hcase]

theorem after_withStatus (h : machine.Idle) (status : Status) (count : Nat) :
    ∃ other, Machine.after { machine with status } count =
      { machine.after count with status := other } := by
  induction count with
  | zero => exact ⟨status, rfl⟩
  | succ count ih =>
    obtain ⟨middle, hmiddle⟩ := ih
    obtain ⟨other, hother⟩ := (h.after count).advance_withStatus middle
    refine ⟨other, ?_⟩
    rw [after_succ', hmiddle, hother, after_succ']

theorem eventsAt_withStatus (h : machine.Idle) (status : Status) (index : Nat) :
    Machine.eventsAt { machine with status } index = machine.eventsAt index := by
  obtain ⟨middle, hmiddle⟩ := h.after_withStatus status index
  obtain ⟨other, hother⟩ := (h.after index).advance_withStatus middle
  rw [eventsAt, hmiddle, hother, eventsAt]

theorem story_withStatus (h : machine.Idle) (status : Status) (count : Nat) :
    Machine.story { machine with status } count = machine.story count := by
  have hevents := funext (h.eventsAt_withStatus status)
  rw [story, story, hevents]

theorem haltsAt_withStatus (h : machine.Idle) (status : Status) (index : Nat) :
    HaltsAt { machine with status } index ↔ machine.HaltsAt index := by
  simp only [HaltsAt, h.eventsAt_withStatus status]

theorem stepsToHalt_withStatus (h : machine.Idle) (status : Status) :
    stepsToHalt { machine with status } = machine.stepsToHalt := by
  simp only [stepsToHalt, h.haltsAt_withStatus status]

/-! ### Halting -/

theorem haltsAt_iff (h : machine.Idle) (index : Nat) :
    machine.HaltsAt index ↔
      (machine.after index).automaton.case? (machine.after index).state
        (machine.after index).tape.head = none := by
  have hidle := h.after index
  cases hcase : (machine.after index).automaton.case? (machine.after index).state
      (machine.after index).tape.head with
  | none => simp [HaltsAt, eventsAt, advance_of_no_case hidle hcase]
  | some case => simp [HaltsAt, eventsAt, advance_of_case hidle hcase]

theorem advance_of_haltsAt (h : machine.Idle) {index : Nat} (hhalts : machine.HaltsAt index) :
    (machine.after index).advance =
      ({ machine.after index with halted := true, status := .stopped },
        [.finished (machine.after index).tape]) :=
  advance_of_no_case (h.after index) ((h.haltsAt_iff index).mp hhalts)

/-- A step that does not halt leaves the machine running if it was. -/
theorem status_advance_of_not_haltsAt (h : machine.Idle) {index : Nat}
    (hgoing : ¬ machine.HaltsAt index) :
    (machine.after index).advance.1.status = (machine.after index).status := by
  rw [h.haltsAt_iff, ← ne_eq, Option.ne_none_iff_exists'] at hgoing
  obtain ⟨case, hcase⟩ := hgoing
  rw [advance_of_case (h.after index) hcase]

/-- A machine that has halted finds no case again, so nothing changes any more. -/
theorem after_halt (h : machine.Idle) {index later : Nat} (hhalts : machine.HaltsAt index)
    (hlater : index ≤ later) :
    machine.eventsAt later = machine.eventsAt index ∧
      machine.after (later + 1) = machine.after (index + 1) := by
  have hstep := h.advance_of_haltsAt hhalts
  have hagain : (machine.after (index + 1)).advance =
      (machine.after (index + 1), [.finished (machine.after index).tape]) := by
    have hcase := (h.haltsAt_iff index).mp hhalts
    rw [after_succ', hstep]
    exact advance_of_no_case ⟨(h.after index).free, (h.after index).settled⟩ hcase
  induction later, hlater using Nat.le_induction with
  | base => exact ⟨rfl, rfl⟩
  | succ later _ ih =>
    refine ⟨?_, ?_⟩
    · rw [eventsAt, ih.2, hagain, eventsAt, hstep]
    · rw [after_succ', ih.2, hagain]

end Idle

theorem stepsToHalt_of_first {index : Nat} (hhalts : machine.HaltsAt index)
    (hgoing : ∀ earlier < index, ¬ machine.HaltsAt earlier) :
    machine.stepsToHalt = (index + 1 : Nat) := by
  apply le_antisymm
  · exact iInf₂_le index hhalts
  · refine le_iInf₂ fun other hother => ENat.natCast_le_natCast.mpr ?_
    by_contra hlt
    exact hgoing other (by omega) hother

theorem lt_stepsToHalt {limit : Nat} (hgoing : ∀ index < limit, ¬ machine.HaltsAt index) :
    (limit : ℕ∞) < machine.stepsToHalt := by
  have hnext : ((limit + 1 : Nat) : ℕ∞) ≤ machine.stepsToHalt := by
    refine le_iInf₂ fun other hother => ENat.natCast_le_natCast.mpr ?_
    by_contra hlt
    exact hgoing other (by omega) hother
  exact lt_of_lt_of_le (ENat.natCast_lt_natCast.mpr (Nat.lt_succ_self limit)) hnext

/-- Of some steps a first one halts, or none does. -/
theorem exists_first_haltsAt_or (machine : Machine) (limit : Nat) :
    (∃ index < limit, machine.HaltsAt index ∧ ∀ earlier < index, ¬ machine.HaltsAt earlier) ∨
      ∀ index < limit, ¬ machine.HaltsAt index := by
  induction limit with
  | zero => exact Or.inr fun index hindex => absurd hindex (Nat.not_lt_zero index)
  | succ limit ih =>
    rcases ih with ⟨index, hindex, hfirst⟩ | hgoing
    · exact Or.inl ⟨index, Nat.lt_succ_of_lt hindex, hfirst⟩
    · by_cases hhalts : machine.HaltsAt limit
      · exact Or.inl ⟨limit, Nat.lt_succ_self limit, hhalts, hgoing⟩
      · refine Or.inr fun index hindex => ?_
        rcases Nat.lt_succ_iff_lt_or_eq.mp hindex with hlt | rfl
        · exact hgoing index hlt
        · exact hhalts

end Machine

/-! ### Hosts that only watch -/

/-- The callbacks ask nothing and let no error out. -/
def Hooks.Passive (hooks : Hooks σ ε) : Prop :=
  ∀ machine host event, ∃ last, hooks.respond machine host event = .done last

theorem Hooks.silent_passive : (Hooks.silent : Hooks σ ε).Passive :=
  fun machine host event => ⟨host, Hooks.respond_silent machine host event⟩

namespace Hooks.Passive

open Machine

variable {hooks : Hooks σ ε} {machine : Machine}

theorem quiet (h : hooks.Passive) : hooks.Quiet := by
  intro machine host event
  obtain ⟨last, hlast⟩ := h machine host event
  rw [hlast]
  trivial

theorem recorded (h : hooks.Passive) : hooks.recorded.Passive := by
  rintro machine ⟨host, log⟩ event
  obtain ⟨last, hlast⟩ := h machine host event
  rw [Hooks.respond_recorded, hlast]
  exact ⟨_, rfl⟩

theorem exists_perform_eq (h : hooks.Passive) (effects : List Effect) (machine : Machine)
    (host : σ) :
    ∃ last, perform hooks effects machine host =
      { machine := (machine.applyAll effects).1
        host := last
        result := .ok (machine.applyAll effects).2 } := by
  induction effects generalizing machine host with
  | nil => exact ⟨host, rfl⟩
  | cons effect effects ih =>
    obtain ⟨next, hnext⟩ := h (effect.apply machine).1 host (effect.apply machine).2
    obtain ⟨last, hlast⟩ := ih (effect.apply machine).1 next
    refine ⟨last, ?_⟩
    simp only [perform, hnext, Script.play, hlast, applyAll, Except.map]

/-- A step is the one without callbacks. -/
theorem step_eq (h : hooks.Passive) (hfree : machine.busy = false) (host : σ) :
    (step hooks machine host).machine = machine.advance.1 ∧
      (step hooks machine host).result = .ok machine.advance.2 := by
  obtain ⟨last, hlast⟩ := h.exists_perform_eq machine.plan { machine with busy := true } host
  simp only [step, hfree, hlast, Bool.false_eq_true, if_false]
  exact ⟨rfl, rfl⟩

theorem calls_event (h : hooks.Passive) (hidle : machine.Idle) (host : σ) :
    (calls hooks machine host).map Call.event = machine.advance.2 :=
  (undisturbed_of_quiet h.quiet hidle host).events

theorem stepTimes_fst (h : hooks.Passive) (hidle : machine.Idle) (count : Nat) (host : σ) :
    (stepTimes hooks count machine host).1 = machine.after count := by
  induction count generalizing machine host with
  | zero => rfl
  | succ count ih =>
    rw [stepTimes, (h.step_eq hidle.free host).1, after_succ]
    exact ih (Idle.advance machine) _

/-- What the log of a host tells is the story of the machine. -/
theorem stepTimes_log (h : hooks.Passive) (hidle : machine.Idle) (count : Nat) (host : σ)
    (log : List Call) :
    (stepTimes hooks.recorded count machine (host, log)).2.2.map Call.event =
      log.map Call.event ++ machine.story count := by
  induction count generalizing machine host log with
  | zero => exact (List.append_nil _).symm
  | succ count ih =>
    rw [stepTimes, step_recorded, (h.step_eq hidle.free host).1, ih (Idle.advance machine),
      List.map_append, h.calls_event hidle, story_succ, List.append_assoc]

/-! ### Runs -/

/-- The loop of a run is the one without callbacks. -/
theorem stepWhileRunning_eq (h : hooks.Passive) (hfree : machine.busy = false)
    (limit taken : Nat) (host : σ) :
    (stepWhileRunning hooks limit taken machine host).machine =
        (advanceWhileRunning limit taken machine).1 ∧
      (stepWhileRunning hooks limit taken machine host).result =
        .ok (advanceWhileRunning limit taken machine).2 := by
  induction limit generalizing machine taken host with
  | zero => exact ⟨rfl, rfl⟩
  | succ limit ih =>
    obtain ⟨hmachine, hresult⟩ := h.step_eq hfree host
    by_cases hrunning : machine.status = .running
    · rw [stepWhileRunning, if_pos hrunning, advanceWhileRunning, if_pos hrunning]
      simp only [hresult]
      rw [hmachine]
      exact ih (Idle.advance machine).free (taken + 1) _
    · rw [stepWhileRunning, if_neg hrunning, advanceWhileRunning, if_neg hrunning]
      exact ⟨rfl, rfl⟩

theorem run_eq (h : hooks.Passive) (hfree : machine.busy = false) (limit : Int) (host : σ) :
    (run hooks limit machine host).machine =
        (advanceWhileRunning limit.toNat 0 { machine with status := .running }).1 ∧
      (run hooks limit machine host).result =
        .ok (advanceWhileRunning limit.toNat 0 { machine with status := .running }).2 := by
  have hstart : { machine with status := .running }.busy = false := hfree
  rw [run, if_neg (by rw [hfree]; exact Bool.false_ne_true)]
  exact h.stepWhileRunning_eq hstart limit.toNat 0 host

/-- As long as no step halts, a run goes on where its first steps lead. -/
theorem stepWhileRunning_add (h : hooks.Passive) (hidle : machine.Idle)
    (hrunning : machine.status = .running) {first : Nat}
    (hgoing : ∀ index < first, ¬ machine.HaltsAt index) (limit taken : Nat) (host : σ) :
    (machine.after first).status = .running ∧
      stepWhileRunning hooks (first + limit) taken machine host =
        stepWhileRunning hooks limit (taken + first) (machine.after first)
          (stepTimes hooks first machine host).2 := by
  induction first generalizing machine taken host with
  | zero =>
    rw [Nat.zero_add]
    exact ⟨hrunning, rfl⟩
  | succ first ih =>
    obtain ⟨hmachine, hresult⟩ := h.step_eq hidle.free host
    have hstatus : machine.advance.1.status = .running :=
      (hidle.status_advance_of_not_haltsAt (hgoing 0 (Nat.succ_pos first))).trans hrunning
    obtain ⟨hlast, hloop⟩ := ih (Idle.advance machine) hstatus
      (fun index hindex => by
        have hlater := hgoing (index + 1) (Nat.succ_lt_succ hindex)
        rwa [HaltsAt, Nat.add_comm, eventsAt_add] at hlater)
      (taken + 1) (step hooks machine host).host
    rw [after_succ]
    refine ⟨hlast, ?_⟩
    rw [Nat.add_right_comm, stepWhileRunning, if_pos hrunning]
    simp only [hresult]
    rw [hmachine, hloop, stepTimes, hmachine, Nat.add_right_comm, Nat.add_assoc taken]

/-- A run without a halt takes all the steps of its limit and ends paused. -/
theorem run_of_going (h : hooks.Passive) (hidle : machine.Idle) {limit : Nat}
    (hgoing : ∀ index < limit, ¬ machine.HaltsAt index) (host : σ) :
    run hooks limit machine host =
      { machine := { machine.after limit with status := .paused }
        host := (stepTimes hooks limit { machine with status := .running } host).2
        result := .ok limit } := by
  have hstart := hidle.withStatus .running
  obtain ⟨hlast, hloop⟩ := h.stepWhileRunning_add hstart rfl
    (fun index hindex => (hidle.haltsAt_withStatus _ index).not.mpr (hgoing index hindex)) 0 0 host
  obtain ⟨status, hafter⟩ := hidle.after_withStatus .running limit
  rw [run, if_neg (by rw [hidle.free]; exact Bool.false_ne_true), Int.toNat_natCast]
  rw [Nat.add_zero] at hloop
  rw [hloop, stepWhileRunning, if_pos hlast, hafter, Nat.zero_add]

/-- A run in which a step halts ends with that step. -/
theorem run_of_halt (h : hooks.Passive) (hidle : machine.Idle) {index limit : Nat}
    (hhalts : machine.HaltsAt index)
    (hgoing : ∀ earlier < index, ¬ machine.HaltsAt earlier) (hindex : index < limit) (host : σ) :
    run hooks limit machine host =
      { machine := machine.after (index + 1)
        host := (stepTimes hooks (index + 1) { machine with status := .running } host).2
        result := .ok (index + 1) } := by
  have hstart := hidle.withStatus .running
  obtain ⟨rest, rfl⟩ : ∃ rest, limit = index + (rest + 1) := ⟨limit - index - 1, by omega⟩
  obtain ⟨hlast, hloop⟩ := h.stepWhileRunning_add hstart rfl
    (fun earlier hearlier => (hidle.haltsAt_withStatus _ earlier).not.mpr (hgoing earlier hearlier))
    (rest + 1) 0 host
  obtain ⟨hmachine, hresult⟩ := h.step_eq (hstart.after index).free
    (stepTimes hooks index { machine with status := .running } host).2
  have hstep := hstart.advance_of_haltsAt ((hidle.haltsAt_withStatus _ index).mpr hhalts)
  obtain ⟨status, hafter⟩ := hidle.after_withStatus .running index
  have hend : (machine.after (index + 1)) =
      (Machine.after { machine with status := .running } index).advance.1 := by
    rw [hstep, hafter, after_succ', hidle.advance_of_haltsAt hhalts]
  have hhost : (stepTimes hooks (index + 1) { machine with status := .running } host).2 =
      (step hooks (Machine.after { machine with status := .running } index)
        (stepTimes hooks index { machine with status := .running } host).2).host := by
    rw [stepTimes_succ, ← h.stepTimes_fst hstart index host]
  rw [run, if_neg (by rw [hidle.free]; exact Bool.false_ne_true), Int.toNat_natCast, hloop,
    stepWhileRunning, if_pos hlast]
  simp only [hresult]
  rw [hmachine, hhost, Nat.zero_add, hend]
  -- the machine is stopped now, whether the limit is reached or not
  cases rest with
  | zero => rw [stepWhileRunning, if_neg (by rw [hstep]; exact Status.noConfusion)]
  | succ rest => rw [stepWhileRunning, if_neg (by rw [hstep]; exact Status.noConfusion)]

theorem exists_run_recorded (h : hooks.Passive) (hidle : machine.Idle) (limit : Int) (host : σ) :
    ∃ count : Nat, (count : ℕ∞) = min (limit.toNat : ℕ∞) machine.stepsToHalt ∧
      (run hooks.recorded limit machine (host, [])).result = .ok count ∧
      (run hooks.recorded limit machine (host, [])).host.2.map Call.event = machine.story count ∧
      ∃ status, (run hooks.recorded limit machine (host, [])).machine =
          { machine.after count with status } ∧
        (machine.stepsToHalt ≤ limit.toNat → status = .stopped) ∧
        ((limit.toNat : ℕ∞) < machine.stepsToHalt → status = .paused) := by
  have hlimit : run hooks.recorded limit machine (host, []) =
      run hooks.recorded (limit.toNat : Int) machine (host, []) := by
    simp only [run, Int.toNat_natCast]
  have hstory := fun count => h.stepTimes_log (hidle.withStatus .running) count host []
  simp only [hidle.story_withStatus, List.map_nil, List.nil_append] at hstory
  rw [hlimit]
  rcases machine.exists_first_haltsAt_or limit.toNat with ⟨index, hindex, hhalts, hfirst⟩ | hgoing
  · have hcount := stepsToHalt_of_first hhalts hfirst
    have hle : ((index + 1 : Nat) : ℕ∞) ≤ limit.toNat := ENat.natCast_le_natCast.mpr hindex
    have hrun := h.recorded.run_of_halt hidle hhalts hfirst hindex (host, [])
    have hstatus : (machine.after (index + 1)).status = .stopped := by
      rw [after_succ', hidle.advance_of_haltsAt hhalts]
    rw [hrun, hcount]
    refine ⟨index + 1, (min_eq_right hle).symm, rfl, hstory _, .stopped, ?_, fun _ => rfl,
      fun hlt => absurd hle (not_le_of_gt hlt)⟩
    show machine.after (index + 1) = { machine.after (index + 1) with status := .stopped }
    rw [← hstatus]
  · have hlt := lt_stepsToHalt hgoing
    have hrun := h.recorded.run_of_going hidle hgoing (host, [])
    rw [hrun]
    exact ⟨limit.toNat, (min_eq_left hlt.le).symm, rfl, hstory _, .paused, rfl,
      fun hle => absurd hlt (not_lt_of_ge hle), fun _ => rfl⟩

end Hooks.Passive

namespace Machine

/-- The count of a run starts where it is told to. -/
theorem stepWhileRunning_map (hooks : Hooks σ ε) (limit taken extra : Nat) (machine : Machine)
    (host : σ) :
    stepWhileRunning hooks limit (taken + extra) machine host =
      (stepWhileRunning hooks limit taken machine host).map (extra + ·) := by
  induction limit generalizing taken machine host with
  | zero => simp only [stepWhileRunning, Outcome.map, Except.map, Nat.add_comm]
  | succ limit ih =>
    simp only [stepWhileRunning]
    split
    · cases (step hooks machine host).result with
      | ok events =>
        have hlater := ih (taken + 1) (step hooks machine host).machine (step hooks machine host).host
        rwa [Nat.add_right_comm] at hlater
      | error fault => rfl
    · simp only [Outcome.map, Except.map, Nat.add_comm]

/-- A run that ends before the machine halts, and another one, are one run. -/
theorem run_add {hooks : Hooks σ ε} (h : hooks.Passive) {machine : Machine} (hidle : machine.Idle)
    {first : Nat} (more : Nat) {host : σ}
    (hunhalted : (run hooks first machine host).machine.halted = false) :
    (run hooks first machine host).result = .ok first ∧
      run hooks (first + more : Nat) machine host =
        (run hooks more (run hooks first machine host).machine
          (run hooks first machine host).host).map (first + ·) := by
  rcases machine.exists_first_haltsAt_or first with ⟨index, hindex, hhalts, hfirst⟩ | hgoing
  · rw [h.run_of_halt hidle hhalts hfirst hindex, after_succ', hidle.advance_of_haltsAt hhalts]
      at hunhalted
    cases hunhalted
  · have hstart := hidle.withStatus .running
    obtain ⟨hlast, hloop⟩ := h.stepWhileRunning_add hstart rfl
      (fun index hindex => (hidle.haltsAt_withStatus _ index).not.mpr (hgoing index hindex)) more 0
      host
    obtain ⟨status, hafter⟩ := hidle.after_withStatus .running first
    obtain rfl : status = .running := by rwa [hafter] at hlast
    have hwhole : run hooks (first + more : Nat) machine host =
        stepWhileRunning hooks (first + more) 0 { machine with status := .running } host := by
      rw [run, if_neg (by rw [hidle.free]; exact Bool.false_ne_true), Int.toNat_natCast]
    have hrest : ∀ now, run hooks more { machine.after first with status := .paused } now =
        stepWhileRunning hooks more 0 { machine.after first with status := .running } now := by
      intro now
      rw [run, if_neg (by rw [(hidle.after first).free]; exact Bool.false_ne_true),
        Int.toNat_natCast]
    rw [h.run_of_going hidle hgoing]
    refine ⟨rfl, ?_⟩
    rw [hwhole, hrest, hloop, stepWhileRunning_map, hafter]

end Machine

/-! ### Schedules -/

/-- An operation that lets a machine go on, by a host that only watches. -/
def Operation.Paces : Operation σ ε → Prop
  | .step hooks => hooks.Passive
  | .run hooks (some _) => hooks.Passive
  | .run _ none | .pause | .stop | .reset _ => False

/-- An operation hears `count` steps of the story of a machine, from the one after `first` others
on. A step hears one. A run hears as many as its limit says, but not beyond the first that halts. -/
structure Operation.Consumes (machine : Machine) (first count : Nat) (operation : Operation σ ε)
    (report : Report ε) : Prop where
  /-- The callbacks are called for the events of these steps. -/
  events : report.calls.map Call.event = (machine.after first).story count
  /-- The machine is the one after these steps, up to its status. -/
  left : ∃ status, report.machine = { machine.after (first + count) with status }
  /-- A step returns the events. -/
  step : ∀ hooks, operation = .step hooks →
    count = 1 ∧ report.result = .ok (.events (machine.eventsAt first))
  /-- A run returns the number of steps. It ends paused if it met no halt, and stopped if it
  did. -/
  run : ∀ hooks limit, operation = .run hooks (some limit) →
    (count : ℕ∞) = min (limit.toNat : ℕ∞) (machine.after first).stepsToHalt ∧
      report.result = .ok (.count count) ∧
      ((limit.toNat : ℕ∞) < (machine.after first).stepsToHalt → report.machine.status = .paused) ∧
      ((machine.after first).stepsToHalt ≤ limit.toNat → report.machine.status = .stopped)

/-- Operations hear the story of a machine piece by piece, from one number of steps to another. -/
inductive Schedule (machine : Machine) :
    Nat → List (Operation σ ε) → List (Report ε) → Nat → Prop where
  | nil (first : Nat) : Schedule machine first [] [] first
  | cons {operation : Operation σ ε} {operations : List (Operation σ ε)} {report : Report ε}
    {reports : List (Report ε)} {first count total : Nat} :
    operation.Consumes machine first count report →
    Schedule machine (first + count) operations reports total →
    Schedule machine first (operation :: operations) (report :: reports) total

theorem Operation.Paces.exists_consumes {operation : Operation σ ε} (h : operation.Paces)
    {machine : Machine} (hidle : machine.Idle) (first : Nat) (status : Status) {host : σ}
    {outcome : Outcome (σ × List Call) ε Reply}
    (hends : operation.recorded.Ends { machine.after first with status } (host, []) outcome) :
    ∃ count, operation.Consumes machine first count
      { result := outcome.result, calls := outcome.host.2, machine := outcome.machine } := by
  have hbase := hidle.after first
  have hnow := hbase.withStatus status
  cases operation with
  | step hooks =>
    subst hends
    obtain ⟨hmachine, hresult⟩ := Hooks.Passive.step_eq h hnow.free host
    have hcalls := Hooks.Passive.calls_event h hnow host
    obtain ⟨other, hother⟩ := hbase.advance_withStatus status
    simp only [hother] at hmachine hresult hcalls
    simp only [Outcome.map, Machine.step_recorded, List.nil_append]
    refine ⟨1, ?_, ⟨other, ?_⟩, ?_, ?_⟩
    · rw [Machine.story_one]
      exact hcalls
    · rw [Machine.after_succ']
      exact hmachine
    · intro _ _
      refine ⟨rfl, ?_⟩
      show Except.map Reply.events (Machine.step hooks _ host).result = _
      rw [hresult]
      rfl
    · intro _ _ hrun
      cases hrun
  | run hooks limit =>
    cases limit with
    | none => exact h.elim
    | some limit =>
      subst hends
      obtain ⟨count, hcount, hresult, hcalls, other, hmachine, hstopped, hpaused⟩ :=
        Hooks.Passive.exists_run_recorded h hnow limit host
      obtain ⟨middle, hafter⟩ := hbase.after_withStatus status count
      rw [hbase.stepsToHalt_withStatus] at hcount hstopped hpaused
      rw [hbase.story_withStatus] at hcalls
      rw [hafter] at hmachine
      refine ⟨count, hcalls, ⟨other, ?_⟩, ?_, ?_⟩
      · rw [Machine.after_add]
        exact hmachine
      · intro _ hstep
        cases hstep
      · intro _ _ hrun
        cases hrun
        refine ⟨hcount, ?_, fun hlt => ?_, fun hle => ?_⟩
        · show Except.map Reply.count (Machine.run hooks.recorded limit _ (host, [])).result = _
          rw [hresult]
          rfl
        · show (Machine.run hooks.recorded limit _ (host, [])).machine.status = _
          rw [hmachine]
          exact hpaused hlt
        · show (Machine.run hooks.recorded limit _ (host, [])).machine.status = _
          rw [hmachine]
          exact hstopped hle
  | pause => exact h.elim
  | stop => exact h.elim
  | reset content => exact h.elim

theorem Course.exists_schedule {operations : List (Operation σ ε)} {now last : Machine} {host : σ}
    {reports : List (Report ε)} (hcourse : Course operations now host reports last)
    (hpaces : ∀ operation ∈ operations, operation.Paces) {machine : Machine}
    (hidle : machine.Idle) {first : Nat} {status : Status}
    (hnow : now = { machine.after first with status }) :
    ∃ count, Schedule machine first operations reports (first + count) ∧
      (reports.flatMap fun report => report.calls.map Call.event) =
        (machine.after first).story count ∧
      ∃ status, last = { machine.after (first + count) with status } := by
  induction hcourse generalizing first status with
  | nil machine host => exact ⟨0, .nil first, rfl, status, hnow⟩
  | cons hends _ ih =>
    subst hnow
    obtain ⟨count, hconsumes⟩ :=
      (hpaces _ List.mem_cons_self).exists_consumes hidle first status hends
    obtain ⟨middle, hmiddle⟩ := hconsumes.left
    obtain ⟨more, hschedule, hstory, hlast⟩ :=
      ih (fun operation hmem => hpaces operation (List.mem_cons_of_mem _ hmem)) hmiddle
    rw [Nat.add_assoc] at hschedule hlast
    refine ⟨count + more, .cons hconsumes hschedule, ?_, hlast⟩
    rw [List.flatMap_cons, hconsumes.events, hstory, Machine.story_add, Machine.after_add]

/-- Operations of a host that only watches come to an end. -/
theorem Operation.Paces.exists_course {operations : List (Operation σ ε)}
    (hpaces : ∀ operation ∈ operations, operation.Paces) (machine : Machine) (host : σ) :
    ∃ reports last, Course operations machine host reports last := by
  induction operations generalizing machine host with
  | nil => exact ⟨[], machine, .nil machine host⟩
  | cons operation operations ih =>
    obtain ⟨outcome, houtcome⟩ :
        ∃ outcome, operation.recorded.Ends machine (host, []) outcome := by
      have hfirst := hpaces operation List.mem_cons_self
      cases operation with
      | step hooks => exact ⟨_, rfl⟩
      | run hooks limit =>
        cases limit with
        | some limit => exact ⟨_, rfl⟩
        | none => exact hfirst.elim
      | pause => exact hfirst.elim
      | stop => exact hfirst.elim
      | reset content => exact hfirst.elim
    obtain ⟨reports, last, hcourse⟩ := ih
      (fun other hmem => hpaces other (List.mem_cons_of_mem _ hmem)) outcome.machine outcome.host.1
    exact ⟨_, last, .cons houtcome hcourse⟩

namespace Machine

/-- Whatever the schedule, a host that only watches hears the story of the machine. -/
structure Paceable (machine : Machine) : Prop where
  /-- Every schedule comes to an end. -/
  ends : ∀ {σ ε : Type} (operations : List (Operation σ ε)) (host : σ),
    (∀ operation ∈ operations, operation.Paces) →
      ∃ reports last, Course operations machine host reports last
  /-- It hears some first steps of the story, all of them, in order and once, and leaves the
  machine that these steps leave. -/
  hears : ∀ {σ ε : Type} {operations : List (Operation σ ε)} {host : σ} {reports : List (Report ε)}
    {last : Machine}, (∀ operation ∈ operations, operation.Paces) →
      Course operations machine host reports last →
        ∃ total, Schedule machine 0 operations reports total ∧
          (reports.flatMap fun report => report.calls.map Call.event) = machine.story total ∧
          ∃ status, last = { machine.after total with status }
  /-- Two runs are one run, if the machine has not halted in between. -/
  joins : ∀ {σ ε : Type} {hooks : Hooks σ ε} (first more : Nat) (host : σ), hooks.Passive →
    (run hooks first machine host).machine.halted = false →
      (run hooks first machine host).result = .ok first ∧
        run hooks (first + more : Nat) machine host =
          (run hooks more (run hooks first machine host).machine
            (run hooks first machine host).host).map (first + ·)
  /-- After a halt the story repeats itself and the machine stays as it is. -/
  repeats : ∀ {index later : Nat}, machine.HaltsAt index → index ≤ later →
    machine.eventsAt later = machine.eventsAt index ∧
      machine.after (later + 1) = machine.after (index + 1)

/-- An idle machine can be paced in any way. -/
theorem paceable_of_idle {machine : Machine} (hidle : machine.Idle) : machine.Paceable := by
  refine ⟨fun operations host hpaces => ?_, fun hpaces hcourse => ?_,
    fun first more host hpassive hunhalted => ?_, fun hhalts hlater => ?_⟩
  · exact Operation.Paces.exists_course hpaces machine host
  · have hschedule := hcourse.exists_schedule hpaces hidle
      (show machine = { machine.after 0 with status := machine.status } from rfl)
    simp only [Nat.zero_add] at hschedule
    exact hschedule
  · exact run_add hpassive hidle more hunhalted
  · exact hidle.after_halt hhalts hlater

/-- A run for no step at all, a step, and a run that meets the halt in its first step. -/
def threePaces : List (Operation Unit Empty) :=
  [.run Hooks.silent (some (-3)), .step Hooks.silent, .run Hooks.silent (some 5)]

theorem paceable_scribe :
    scribe.Idle ∧ scribe.Paceable ∧ scribe.HaltsAt 1 ∧
      (run (Hooks.silent : Hooks Unit Empty) 1 scribe ()).machine.halted = false ∧
      (∀ operation ∈ threePaces, operation.Paces) ∧
      ∃ reports last total, Course threePaces scribe () reports last ∧
        Schedule scribe 0 threePaces reports total := by
  have hidle : scribe.Idle := ⟨rfl, rfl⟩
  have hpaceable := paceable_of_idle hidle
  have hpaces : ∀ operation ∈ threePaces, operation.Paces := by
    intro operation hmem
    simp only [threePaces, List.mem_cons, List.not_mem_nil, or_false] at hmem
    rcases hmem with rfl | rfl | rfl <;> exact Hooks.silent_passive
  obtain ⟨reports, last, hcourse⟩ := hpaceable.ends threePaces () hpaces
  obtain ⟨total, hschedule, -⟩ := hpaceable.hears hpaces hcourse
  exact ⟨hidle, hpaceable, ⟨_, rfl⟩, by decide, hpaces, reports, last, total, hcourse, hschedule⟩

end Machine

end TapeMachine
