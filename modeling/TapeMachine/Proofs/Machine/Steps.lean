import TapeMachine.Machine.Hooks

/-!
# TapeMachine.Proofs.Machine.Steps

What a step comes to when nobody interferes.

* `Machine.Idle` — no step is under way and no request to start over is noted.
* `Machine.advance_of_case`, `Machine.advance_of_no_case` — the two things a step of an idle
  machine can be.
* `Machine.run_silent` — a run with a silent host is a loop over `advance`.

Everything about steps without callbacks is read off the first two lemmas and not off the list of
effects.
-/

namespace TapeMachine.Machine

variable {σ ε : Type} {machine : Machine}

/-- No step is under way, and no request to start over waits for one to end. -/
structure Idle (machine : Machine) : Prop where
  /-- No step is under way. -/
  free : machine.busy = false
  /-- Nothing is noted. -/
  settled : machine.pending = none

theorem idle_start (automaton : Automaton) (margin : Margin) (content : Text) :
    (start automaton margin content).Idle :=
  ⟨rfl, rfl⟩

theorem Idle.withStatus (h : machine.Idle) (status : Status) :
    { machine with status }.Idle :=
  ⟨h.free, h.settled⟩

/-! ### One step -/

theorem settle_of_pending_none (h : machine.pending = none) :
    machine.settle = { machine with busy := false } := by
  simp [settle, h]

/-- Where there is a case, a step writes, moves and switches state. -/
theorem advance_of_case (h : machine.Idle) {case : Case}
    (hcase : machine.automaton.case? machine.state machine.tape.head = some case) :
    machine.advance =
      ({ machine with
          tape := (machine.tape.write case.replacement).move case.direction
          state := case.target
          steps := machine.steps + 1 },
        [.replaced (machine.tape.write case.replacement) machine.tape.head case.replacement,
          .moved ((machine.tape.write case.replacement).move case.direction) case.direction,
          .switched case.target]) := by
  rw [advance, plan_of_case hcase]
  simp only [applyAll, Effect.apply, Tape.replace_fst, Tape.replace_snd]
  rw [settle_of_pending_none, h.free]
  exact h.settled

/-- Where there is none, it halts. -/
theorem advance_of_no_case (h : machine.Idle)
    (hcase : machine.automaton.case? machine.state machine.tape.head = none) :
    machine.advance =
      ({ machine with halted := true, status := .stopped }, [.finished machine.tape]) := by
  rw [advance, plan_of_no_case hcase]
  simp only [applyAll, Effect.apply]
  rw [settle_of_pending_none, h.free]
  exact h.settled

/-! ### Runs without callbacks -/

/-- With a silent host the loop of a run is the one over `advance`. -/
theorem stepWhileRunning_silent (h : machine.busy = false) (limit taken : Nat) (host : σ) :
    stepWhileRunning (Hooks.silent : Hooks σ ε) limit taken machine host =
      { machine := (advanceWhileRunning limit taken machine).1
        host
        result := .ok (advanceWhileRunning limit taken machine).2 } := by
  induction limit generalizing taken machine with
  | zero => rfl
  | succ limit ih =>
    rw [stepWhileRunning, advanceWhileRunning]
    by_cases hrunning : machine.status = .running
    · rw [if_pos hrunning, if_pos hrunning, step_silent h host]
      exact ih (settle_busy _) (taken + 1)
    · rw [if_neg hrunning, if_neg hrunning]

theorem run_silent (h : machine.busy = false) (limit : Int) (host : σ) :
    run (Hooks.silent : Hooks σ ε) limit machine host =
      { machine := (advanceWhileRunning limit.toNat 0 { machine with status := .running }).1
        host
        result := .ok
          (advanceWhileRunning limit.toNat 0 { machine with status := .running }).2 } := by
  rw [run, if_neg (by rw [h]; exact Bool.false_ne_true), stepWhileRunning_silent]
  exact h

end TapeMachine.Machine
