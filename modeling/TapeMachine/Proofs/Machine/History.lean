import TapeMachine.Proofs.Machine.Reentrancy

/-!
# TapeMachine.Proofs.Machine.History

What can become of a machine in the hands of a host.

A host steps, runs, pauses, stops and resets a machine, again and again, and its callbacks do what
they like in between: they ask for more, and they let errors out. A `Course` is such a history. It
keeps a `Report` of each operation: the result, the calls of the callbacks with all that they
asked, and the machine that is left.

* `Operation.Ends` — an operation ends, with an outcome.
* `Course` — operations one after the other.
* `Machine.Invariant` — what starting over brings about and the effects of a step keep.
* `Machine.Kept.course` — an invariant holds at every moment of a course.

An invariant says nothing about status, note and flag. These are what callbacks can change, so
whatever they do is of no account to it, and an error that ends a step early leaves a machine in
which some of the effects have taken place.
-/

namespace TapeMachine

variable {σ ε α β : Type}

/-- The same with another result. -/
def Outcome.map (f : α → β) (outcome : Outcome σ ε α) : Outcome σ ε β :=
  { machine := outcome.machine, host := outcome.host, result := outcome.result.map f }

/-- What a host does with a machine, from outside of all callbacks. -/
inductive Operation (σ ε : Type) where
  /-- Takes a step. -/
  | step (hooks : Hooks σ ε)
  /-- Runs the machine, for at most some steps or without a limit. -/
  | run (hooks : Hooks σ ε) (limit : Option Int)
  /-- Interrupts its run. -/
  | pause
  /-- Starts over on the same content. -/
  | stop
  /-- Starts over on other content. -/
  | reset (content : Text)

/-- What an operation returns. -/
inductive Reply where
  /-- The events of a step. -/
  | events (events : List Event)
  /-- The number of steps of a run. -/
  | count (taken : Nat)
  /-- Nothing. -/
  | nothing
deriving Repr, DecidableEq

namespace Operation

/-- The operation ends, with the given outcome. A run without a limit ends if one with some limit
ends before it gets there. -/
def Ends (machine : Machine) (host : σ) (outcome : Outcome σ ε Reply) : Operation σ ε → Prop
  | .step hooks => outcome = (machine.step hooks host).map .events
  | .run hooks (some limit) => outcome = (machine.run hooks limit host).map .count
  | .run hooks none => ∃ limit : Nat, outcome = (machine.run hooks limit host).map .count ∧
      outcome.result ≠ .ok (.count limit)
  | .pause =>
    match machine.pause with
    | .ok paused => outcome = { machine := paused, host, result := .ok .nothing }
    | .error error => outcome = { machine, host, result := .error (.refused error) }
  | .stop => outcome = { machine := machine.stop, host, result := .ok .nothing }
  | .reset content => outcome = { machine := machine.reset content, host, result := .ok .nothing }

/-- The operation lets the machine go on: it is a step or a run. -/
def Drives : Operation σ ε → Prop
  | .step _ | .run _ _ => True
  | .pause | .stop | .reset _ => False

/-- The same operation by a host that keeps a log. -/
def recorded : Operation σ ε → Operation (σ × List Call) ε
  | .step hooks => .step hooks.recorded
  | .run hooks limit => .run hooks.recorded limit
  | .pause => .pause
  | .stop => .stop
  | .reset content => .reset content

end Operation

/-- What is known of an operation when it is over. -/
structure Report (ε : Type) where
  /-- What it returned, or the error it let out. -/
  result : Except (Fault ε) Reply
  /-- The calls of the callbacks, in order. -/
  calls : List Call
  /-- The machine that is left. -/
  machine : Machine

/-- Operations one after the other, with their reports. -/
inductive Course : List (Operation σ ε) → Machine → σ → List (Report ε) → Machine → Prop where
  /-- Nothing is done. -/
  | nil (machine : Machine) (host : σ) : Course [] machine host [] machine
  /-- An operation and what follows. -/
  | cons {operation : Operation σ ε} {operations : List (Operation σ ε)} {machine last : Machine}
    {host : σ} {outcome : Outcome (σ × List Call) ε Reply} {reports : List (Report ε)} :
    operation.recorded.Ends machine (host, []) outcome →
    Course operations outcome.machine outcome.host.1 reports last →
    Course (operation :: operations) machine host
      ({ result := outcome.result, calls := outcome.host.2, machine := outcome.machine } ::
        reports)
      last

/-! ### Keeping a log changes nothing -/

namespace Machine

theorem stepWhileRunning_recorded (hooks : Hooks σ ε) (limit taken : Nat) (machine : Machine)
    (host : σ) :
    ∃ calls, ∀ log, stepWhileRunning hooks.recorded limit taken machine (host, log) =
      { machine := (stepWhileRunning hooks limit taken machine host).machine
        host := ((stepWhileRunning hooks limit taken machine host).host, log ++ calls)
        result := (stepWhileRunning hooks limit taken machine host).result } := by
  induction limit generalizing taken machine host with
  | zero => exact ⟨[], fun log => by rw [List.append_nil]; rfl⟩
  | succ limit ih =>
    simp only [stepWhileRunning, step_recorded]
    by_cases hrunning : machine.status = .running
    · simp only [if_pos hrunning]
      cases hresult : (step hooks machine host).result with
      | ok events =>
        obtain ⟨later, hlater⟩ := ih (taken + 1) (step hooks machine host).machine
          (step hooks machine host).host
        refine ⟨calls hooks machine host ++ later, fun log => ?_⟩
        simp only [hlater, List.append_assoc]
      | error fault => exact ⟨calls hooks machine host, fun log => rfl⟩
    · simp only [if_neg hrunning]
      exact ⟨[], fun log => by rw [List.append_nil]⟩

theorem run_recorded (hooks : Hooks σ ε) (limit : Int) (machine : Machine) (host : σ) :
    ∃ calls, ∀ log, run hooks.recorded limit machine (host, log) =
      { machine := (run hooks limit machine host).machine
        host := ((run hooks limit machine host).host, log ++ calls)
        result := (run hooks limit machine host).result } := by
  unfold run
  split
  · exact ⟨[], fun log => by rw [List.append_nil]⟩
  · exact stepWhileRunning_recorded hooks limit.toNat 0 _ host

end Machine

/-- An operation ends for a host that keeps a log as it does without the log, so the reports of a
course tell of the operations themselves. -/
theorem Operation.Ends.recorded {operation : Operation σ ε} {machine : Machine} {host : σ}
    {outcome : Outcome σ ε Reply} (h : operation.Ends machine host outcome) :
    ∃ calls, operation.recorded.Ends machine (host, [])
      { machine := outcome.machine, host := (outcome.host, calls), result := outcome.result } := by
  cases operation with
  | step hooks =>
    subst h
    refine ⟨Machine.calls hooks machine host, ?_⟩
    simp only [Operation.recorded, Ends, Machine.step_recorded, List.nil_append]
    rfl
  | run hooks limit =>
    cases limit with
    | some limit =>
      subst h
      obtain ⟨calls, hcalls⟩ := machine.run_recorded hooks limit host
      refine ⟨calls, ?_⟩
      simp only [Operation.recorded, Ends, hcalls, List.nil_append]
      rfl
    | none =>
      obtain ⟨limit, rfl, hended⟩ := h
      obtain ⟨calls, hcalls⟩ := machine.run_recorded hooks limit host
      refine ⟨calls, limit, ?_, hended⟩
      rw [hcalls]
      rfl
  | pause =>
    refine ⟨[], ?_⟩
    simp only [Operation.recorded, Ends] at h ⊢
    split at h
    · subst h
      rfl
    · subst h
      rfl
  | stop =>
    subst h
    exact ⟨[], rfl⟩
  | reset content =>
    subst h
    exact ⟨[], rfl⟩

/-! ### Invariants -/

/-- All along a call, a property holds of the machine. -/
def Call.Throughout (P : Machine → Prop) (call : Call) : Prop :=
  P call.machine ∧ ∀ exchange ∈ call.exchanges, P exchange.before ∧ P exchange.after

namespace Machine

/-- What holds of a machine that starts, is no matter of status, flag and note, and is kept by the
effects of a step, also if it does not have all of them. -/
structure Invariant (automaton : Automaton) (margin : Margin) (P : Machine → Prop) : Prop where
  /-- It holds at the start. -/
  start : ∀ content, P (start automaton margin content)
  /-- It does not depend on what callbacks can change. -/
  indifferent : ∀ machine status busy pending, P machine → P { machine with status, busy, pending }
  /-- It is kept by the first effects of a step, however many. -/
  effects : ∀ machine count, machine.automaton = automaton → P machine →
    P (machine.applyAll (machine.plan.take count)).1

theorem SameWork.fixed {left right : Machine} (h : left.SameWork right) :
    left.automaton = right.automaton ∧ left.margin = right.margin := by
  obtain ⟨_, _, rfl⟩ := h
  exact ⟨rfl, rfl⟩

/-- A machine between two operations of which an invariant holds. -/
structure Kept (automaton : Automaton) (margin : Margin) (P : Machine → Prop) (machine : Machine) :
    Prop where
  automaton : machine.automaton = automaton
  margin : machine.margin = margin
  free : machine.busy = false
  holds : P machine

namespace Invariant

variable {automaton : Automaton} {margin : Margin} {P : Machine → Prop} {left right : Machine}

theorem of_sameWork (hinv : Invariant automaton margin P) (h : left.SameWork right)
    (hright : P right) : P left := by
  obtain ⟨status, pending, rfl⟩ := h
  exact hinv.indifferent right status right.busy pending hright

theorem throughout (hinv : Invariant automaton margin P) {call : Call}
    (h : call.Contained right) (hright : P right) : call.Throughout P := by
  refine ⟨hinv.of_sameWork h.machine hright, fun exchange hmem => ?_⟩
  obtain ⟨-, hbefore, hafter⟩ := h.exchanges exchange hmem
  exact ⟨hinv.of_sameWork hbefore hright, hinv.of_sameWork hafter hright⟩

theorem kept_start (hinv : Invariant automaton margin P) (content : Text) :
    Kept automaton margin P (Machine.start automaton margin content) :=
  ⟨rfl, rfl, rfl, hinv.start content⟩

end Invariant

/-- Starting over leaves nothing of a machine but its note. -/
theorem reset_of_free {machine : Machine} (h : machine.busy = false) (content : Text) :
    machine.reset content =
      { start machine.automaton machine.margin content with pending := machine.pending } := by
  simp [reset, restart, start, h]

namespace Kept

variable {automaton : Automaton} {margin : Margin} {P : Machine → Prop} {machine : Machine}

theorem withStatus (h : Kept automaton margin P machine) (hinv : Invariant automaton margin P)
    (status : Status) : Kept automaton margin P { machine with status } :=
  ⟨h.automaton, h.margin, h.free, hinv.indifferent machine status _ _ h.holds⟩

theorem reset (h : Kept automaton margin P machine) (hinv : Invariant automaton margin P)
    (content : Text) : Kept automaton margin P (machine.reset content) := by
  rw [reset_of_free h.free, h.automaton, h.margin]
  exact ⟨rfl, rfl, rfl, hinv.indifferent _ _ _ _ (hinv.start content)⟩

/-- The end of a step keeps an invariant, whether all effects took place or an error cut the step
short. -/
theorem of_last {last : Machine} (hinv : Invariant automaton margin P)
    (hautomaton : last.automaton = automaton) (hmargin : last.margin = margin) (hlast : P last) :
    Kept automaton margin P last.settle ∧ Kept automaton margin P { last with busy := false } := by
  have hfree : Kept automaton margin P { last with busy := false } :=
    ⟨hautomaton, hmargin, rfl, hinv.indifferent last _ _ _ hlast⟩
  refine ⟨?_, hfree⟩
  cases hpending : last.pending with
  | none =>
    rw [settle_of_pending_none hpending]
    exact hfree
  | some content =>
    rw [settle_of_pending hpending, hautomaton, hmargin]
    exact hinv.kept_start content

/-- An invariant holds all along a step, whatever callbacks do. -/
theorem step (h : Kept automaton margin P machine) (hinv : Invariant automaton margin P)
    (hooks : Hooks σ ε) (host : σ) :
    (∀ call ∈ calls hooks machine host, call.Throughout P) ∧
      Kept automaton margin P (step hooks machine host).machine := by
  obtain ⟨performed, last, hprefix, hsession, hend⟩ := step_cases hooks h.free host
  obtain ⟨hlast, -, hcalls⟩ := hsession.undisturbed rfl (.refl _)
  have hbusy : P { machine with busy := true } := hinv.indifferent machine _ _ _ h.holds
  have hflight : ∀ count, P (applyAll { machine with busy := true } (performed.take count)).1 := by
    intro count
    rw [List.prefix_iff_eq_take.mp hprefix, List.take_take]
    exact hinv.effects { machine with busy := true } _ h.automaton hbusy
  constructor
  · intro call hmem
    obtain ⟨index, hindex⟩ := List.mem_iff_getElem?.mp hmem
    exact hinv.throughout (hcalls index call hindex) (hflight (index + 1))
  · have hholds : P last := by
      refine hinv.of_sameWork hlast ?_
      have hwhole := hflight performed.length
      rwa [List.take_length] at hwhole
    obtain ⟨hautomaton, hmargin⟩ := applyAll_fixed performed { machine with busy := true }
    obtain ⟨hsettle, hcut⟩ := of_last hinv (hlast.fixed.1.trans (hautomaton.trans h.automaton))
      (hlast.fixed.2.trans (hmargin.trans h.margin)) hholds
    rcases hend with ⟨-, hmachine, -⟩ | ⟨hmachine, -⟩
    · rw [hmachine]
      exact hsettle
    · rw [hmachine]
      exact hcut

theorem stepWhileRunning (h : Kept automaton margin P machine)
    (hinv : Invariant automaton margin P) (hooks : Hooks σ ε) (limit taken : Nat) (host : σ)
    {log : List Call} (hlog : ∀ call ∈ log, call.Throughout P) :
    (∀ call ∈ (stepWhileRunning hooks.recorded limit taken machine (host, log)).host.2,
        call.Throughout P) ∧
      Kept automaton margin P
        (stepWhileRunning hooks.recorded limit taken machine (host, log)).machine := by
  induction limit generalizing machine taken host log with
  | zero =>
    refine ⟨hlog, ?_⟩
    rw [Machine.stepWhileRunning]
    split
    · exact h.withStatus hinv .paused
    · exact h
  | succ limit ih =>
    rw [Machine.stepWhileRunning]
    split
    · obtain ⟨hcalls, hstep⟩ := h.step hinv hooks host
      have hlater : ∀ call ∈ log ++ calls hooks machine host, call.Throughout P := by
        intro call hmem
        rcases List.mem_append.mp hmem with hmem | hmem
        · exact hlog call hmem
        · exact hcalls call hmem
      rw [step_recorded]
      cases (Machine.step hooks machine host).result with
      | ok events => exact ih hstep (taken + 1) _ hlater
      | error fault => exact ⟨hlater, hstep⟩
    · exact ⟨hlog, h⟩

theorem run (h : Kept automaton margin P machine) (hinv : Invariant automaton margin P)
    (hooks : Hooks σ ε) (limit : Int) (host : σ) :
    (∀ call ∈ (run hooks.recorded limit machine (host, [])).host.2, call.Throughout P) ∧
      Kept automaton margin P (run hooks.recorded limit machine (host, [])).machine := by
  rw [Machine.run, if_neg (by rw [h.free]; exact Bool.false_ne_true)]
  exact (h.withStatus hinv .running).stepWhileRunning hinv hooks limit.toNat 0 host
    fun _ hmem => absurd hmem List.not_mem_nil

/-- An invariant holds all along an operation. -/
theorem operation (h : Kept automaton margin P machine) (hinv : Invariant automaton margin P)
    {operation : Operation σ ε} {host : σ} {outcome : Outcome (σ × List Call) ε Reply}
    (hends : operation.recorded.Ends machine (host, []) outcome) :
    (∀ call ∈ outcome.host.2, call.Throughout P) ∧
      Kept automaton margin P outcome.machine := by
  have hsilent : ∀ call ∈ ([] : List Call), call.Throughout P :=
    fun _ hmem => absurd hmem List.not_mem_nil
  cases operation with
  | step hooks =>
    subst hends
    rw [step_recorded]
    exact h.step hinv hooks host
  | run hooks limit =>
    cases limit with
    | some limit =>
      subst hends
      exact h.run hinv hooks limit host
    | none =>
      obtain ⟨limit, rfl, -⟩ := hends
      exact h.run hinv hooks limit host
  | pause =>
    simp only [Operation.recorded, Operation.Ends, pause] at hends
    split at hends
    · next paused hpaused =>
      subst hends
      split at hpaused
      · obtain rfl := Except.ok.inj hpaused
        exact ⟨hsilent, h.withStatus hinv .paused⟩
      · cases hpaused
    · subst hends
      exact ⟨hsilent, h⟩
  | stop =>
    subst hends
    exact ⟨hsilent, h.reset hinv machine.input⟩
  | reset content =>
    subst hends
    exact ⟨hsilent, h.reset hinv content⟩

/-- An invariant holds at every moment of a course, in callbacks and between operations. -/
theorem course {operations : List (Operation σ ε)} {host : σ} {reports : List (Report ε)}
    {last : Machine} (hcourse : Course operations machine host reports last)
    (h : Kept automaton margin P machine) (hinv : Invariant automaton margin P) :
    Kept automaton margin P last ∧ ∀ report ∈ reports,
      P report.machine ∧ ∀ call ∈ report.calls, call.Throughout P := by
  induction hcourse with
  | nil machine host => exact ⟨h, fun _ hmem => absurd hmem List.not_mem_nil⟩
  | cons hends _ ih =>
    obtain ⟨hcalls, hnext⟩ := h.operation hinv hends
    obtain ⟨hlast, hreports⟩ := ih hnext
    refine ⟨hlast, fun report hmem => ?_⟩
    rcases List.mem_cons.mp hmem with rfl | hmem
    · exact ⟨hnext.holds, hcalls⟩
    · exact hreports report hmem

end Kept

end Machine

end TapeMachine
