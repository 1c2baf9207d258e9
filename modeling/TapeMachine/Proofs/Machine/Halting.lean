import TapeMachine.Proofs.Machine.StartingOver

/-!
# TapeMachine.Proofs.Machine.Halting

A machine that halted stays where it is.

The flag `halted` is set by a step that finds no case. It says more than that: whenever it is set,
there is no case now, in callbacks and between operations, whatever hosts do (`Machine.HaltsTruly`).
So all steps that follow are alike. They tell once more that the machine halted, and change nothing.

* `Machine.Stuck` — there is no case for the current state and cell.
* `Machine.Rests` — what a step comes to that starts from a machine that halted.
* `Machine.KeepsFlag` — the flag stays set all along some calls, and if it is not set any more when
  they are over, then a request to start over took effect.

That the flag tells the truth is an `Invariant`. What becomes of the flag in a step is read off
`step_flag`, and a run goes on only behind a step that did not find the machine stuck.
-/

namespace TapeMachine

variable {σ ε : Type}

/-- The machine at each moment of a call: as the callback finds it, and before and after each
request. -/
def Call.moments (call : Call) : List Machine :=
  call.machine :: call.exchanges.flatMap fun exchange => [exchange.before, exchange.after]

theorem Call.Contained.sameWork_of_mem_moments {call : Call} {plain moment : Machine}
    (h : call.Contained plain) (hmem : moment ∈ call.moments) : moment.SameWork plain := by
  rcases List.mem_cons.mp hmem with rfl | hmem
  · exact h.machine
  · obtain ⟨exchange, hexchange, hmem⟩ := List.mem_flatMap.mp hmem
    obtain ⟨-, hbefore, hafter⟩ := h.exchanges exchange hexchange
    rcases List.mem_cons.mp hmem with rfl | hmem
    · exact hbefore
    · rw [List.mem_singleton.mp hmem]
      exact hafter

theorem Call.Contained.trans {call : Call} {left right : Machine} (h : call.Contained left)
    (hsame : left.SameWork right) : call.Contained right := by
  refine ⟨h.machine.trans hsame, ?_⟩
  intro exchange hmem
  obtain ⟨hcontained, hbefore, hafter⟩ := h.exchanges exchange hmem
  exact ⟨hcontained, hbefore.trans hsame, hafter.trans hsame⟩

namespace Machine

/-- The machine at each moment of an operation with the given calls, up to its end. -/
def moments (machine : Machine) (calls : List Call) : List Machine :=
  machine :: calls.flatMap Call.moments

/-- There is no case for the current state and the cell under the head. -/
def Stuck (machine : Machine) : Prop :=
  machine.automaton.case? machine.state machine.tape.head = none

/-- The flag tells the truth: if it is set, then there is no case. -/
def HaltsTruly (machine : Machine) : Prop :=
  machine.halted = true → machine.Stuck

/-- The content to start over with when some calls are over: that of the latest request in them, or
else the one that is noted. -/
def noted (machine : Machine) (calls : List Call) : Option Text :=
  (Call.restarts machine.input calls).getLast?.or machine.pending

/-- What a step comes to that starts from a machine that halted. -/
structure Rests (hooks : Hooks σ ε) (machine : Machine) (host : σ) : Prop where
  /-- There is one event, which says that there was no case, on the same tape. While it is handed
  to its callback, nothing but the status and the note of the machine changes. -/
  told : ∃ call, calls hooks machine host = [call] ∧ call.event = .finished machine.tape ∧
    call.Contained { machine with busy := true }
  /-- If no error leaves the callback, then this is the result. -/
  result : ∀ events, (step hooks machine host).result = .ok events →
    events = [.finished machine.tape]
  /-- The machine is left as it was, or it starts over. -/
  after : (step hooks machine host).machine.SameWork machine ∨
    ∃ content, machine.noted (calls hooks machine host) = some content ∧
      (step hooks machine host).machine = start machine.automaton machine.margin content

/-- What becomes of the flag in some calls and at the end of the operation that they belong to. -/
structure KeepsFlag (machine : Machine) (calls : List Call) (after : Machine) : Prop where
  /-- Once set, it is set until the last callback ends. -/
  kept : (machine.moments calls).Pairwise fun earlier later =>
    earlier.halted = true → later.halted = true
  /-- If it is not set any more after that, then a request to start over took effect. -/
  cleared : (∃ moment ∈ machine.moments calls, moment.halted = true) → after.halted = false →
    ∃ content, machine.noted calls = some content ∧
      after = start machine.automaton machine.margin content

variable {automaton : Automaton} {margin : Margin} {machine : Machine}

theorem moments_append (machine : Machine) (calls later : List Call) :
    machine.moments (calls ++ later) = machine.moments calls ++ later.flatMap Call.moments := by
  rw [moments, List.flatMap_append]
  rfl

theorem noted_append (machine : Machine) (calls later : List Call) :
    machine.noted (calls ++ later) =
      (Call.restarts machine.input later).getLast?.or (machine.noted calls) := by
  rw [noted, noted, Call.restarts, List.flatMap_append, List.getLast?_append, Option.or_assoc]
  rfl

/-! ### The flag tells the truth -/

theorem SameWork.halted_eq {left right : Machine} (h : left.SameWork right) :
    left.halted = right.halted := by
  obtain ⟨_, _, rfl⟩ := h
  rfl

/-- The flag is set by the effect of halting and by no other. -/
theorem halted_applyAll (effects : List Effect) (machine : Machine) :
    (machine.applyAll effects).1.halted = true ↔ machine.halted = true ∨ .halt ∈ effects := by
  induction effects generalizing machine with
  | nil => simp [applyAll]
  | cons effect effects ih =>
    rw [applyAll, ih, List.mem_cons]
    cases effect <;> simp [Effect.apply]

/-- A step halts if the machine is stuck, and it does nothing else then. -/
theorem halt_mem_iff_stuck {performed : List Effect} (h : performed <+: machine.plan)
    (hne : performed ≠ []) : .halt ∈ performed ↔ machine.Stuck := by
  unfold Stuck
  cases hcase : machine.automaton.case? machine.state machine.tape.head with
  | none =>
    rw [plan_of_no_case hcase] at h
    obtain ⟨effect, rest, rfl⟩ := List.exists_cons_of_ne_nil hne
    obtain ⟨rfl, -⟩ := List.cons_prefix_cons.mp h
    simp
  | some case =>
    rw [plan_of_case hcase] at h
    have hplan : .halt ∉ performed := fun hmem => by simpa using h.subset hmem
    simp [hplan]

/-- That the flag tells the truth is an invariant. -/
theorem invariant_haltsTruly (automaton : Automaton) (margin : Margin) :
    Invariant automaton margin HaltsTruly := by
  refine ⟨?_, fun machine status busy pending h => h, ?_⟩
  · intro content hhalted
    cases hhalted
  · intro machine count hautomaton h hhalted
    cases hcase : machine.automaton.case? machine.state machine.tape.head with
    | none =>
      -- halting leaves the state and the tape as they are
      rw [plan_of_no_case hcase]
      cases count with
      | zero => exact hcase
      | succ count =>
        rw [List.take_of_length_le (by simp)]
        exact hcase
    | some case =>
      -- the flag was not set before, and no effect of such a step sets it
      have hunset : ¬ machine.halted = true := by
        intro hset
        have hstuck : _ = none := h hset
        rw [hcase] at hstuck
        cases hstuck
      rw [halted_applyAll, plan_of_case hcase] at hhalted
      rcases hhalted with hset | hmem
      · exact absurd hset hunset
      · exact absurd (List.mem_of_mem_take hmem) (by simp)

/-! ### The flag in a step -/

end Machine

/-- Where there is a call, there is an effect. -/
theorem Session.effects_ne_nil {machine last : Machine} {effects : List Effect}
    {calls : List Call} (h : Session machine effects calls last) (hcalls : calls ≠ []) :
    effects ≠ [] := by
  rintro rfl
  cases h
  exact hcalls rfl

/-- Behind the effect of halting the machine is not running, whatever callbacks ask. -/
theorem Session.status_ne_running_of_halt {machine last : Machine} {effects : List Effect}
    {calls : List Call} (h : Session machine effects calls last) (hbusy : machine.busy = true)
    (hhalt : .halt ∈ effects) : last.status ≠ .running := by
  induction h with
  | rest machine => cases hhalt
  | @call machine next last effect effects exchanges calls hdialogue hsession ih =>
    have hfirstBusy := (effect.apply_busy machine).trans hbusy
    have hnextBusy := (hdialogue.contained hfirstBusy).1.busy_eq.trans hfirstBusy
    rcases List.mem_cons.mp hhalt with rfl | hmem
    · have hstopped : (Effect.halt.apply machine).1.status ≠ .running := Status.noConfusion
      exact hsession.status_ne_running hnextBusy
        (.inl (hdialogue.status_ne_running hfirstBusy (.inl hstopped)))
    · exact ih hnextBusy hmem

namespace Machine

variable {automaton : Automaton} {margin : Margin} {machine : Machine}

/-- How a step ends. Either a request to start over takes effect then, or the machine is the one
that the last callback left, and no request waits if the step ended well. -/
theorem step_end (hooks : Hooks σ ε) (hfree : machine.busy = false) (host : σ) :
    ∃ performed last, performed <+: machine.plan ∧ performed ≠ [] ∧
      Session { machine with busy := true } performed (calls hooks machine host) last ∧
      ((∃ content, machine.noted (calls hooks machine host) = some content ∧
          (step hooks machine host).machine = start machine.automaton machine.margin content) ∨
        (step hooks machine host).machine = { last with busy := false } ∧
          ∀ events, (step hooks machine host).result = .ok events →
            machine.noted (calls hooks machine host) = none ∧ last.pending = none) := by
  obtain ⟨performed, last, hprefix, hsession, hend⟩ := step_cases hooks hfree host
  have hne : performed ≠ [] := hsession.effects_ne_nil (calls_ne_nil hooks hfree host)
  have hpending : last.pending = machine.noted (calls hooks machine host) := hsession.pending rfl
  refine ⟨performed, last, hprefix, hne, hsession, ?_⟩
  rcases hend with ⟨-, hmachine, -⟩ | ⟨hmachine, fault, hfault⟩
  · obtain hnote | ⟨content, hnote⟩ := Option.eq_none_or_eq_some last.pending
    · rw [settle_of_pending_none hnote] at hmachine
      exact .inr ⟨hmachine, fun _ _ => ⟨hpending.symm.trans hnote, hnote⟩⟩
    · obtain ⟨hlast, -, -⟩ := hsession.undisturbed rfl (.refl _)
      obtain ⟨hautomaton, hmargin⟩ := applyAll_fixed performed { machine with busy := true }
      refine .inl ⟨content, hpending.symm.trans hnote, ?_⟩
      rw [hmachine, settle_of_pending hnote, hlast.fixed.1, hlast.fixed.2, hautomaton, hmargin]
  · refine .inr ⟨hmachine, ?_⟩
    intro events hevents
    cases hfault.symm.trans hevents

/-- All that a step does to the flag. In the callbacks it is set if it was set before or the machine
is stuck, and also after them, unless a request to start over takes effect. -/
theorem step_flag (hooks : Hooks σ ε) (hfree : machine.busy = false) (host : σ) :
    (∀ call ∈ calls hooks machine host, ∀ moment ∈ call.moments,
      (moment.halted = true ↔ machine.halted = true ∨ machine.Stuck)) ∧
    ((∃ content, machine.noted (calls hooks machine host) = some content ∧
        (step hooks machine host).machine = start machine.automaton machine.margin content) ∨
      ((step hooks machine host).machine.halted = true ↔ machine.halted = true ∨ machine.Stuck) ∧
      (machine.Stuck → (step hooks machine host).machine.status ≠ .running) ∧
      (step hooks machine host).machine.input = machine.input ∧
      ∀ events, (step hooks machine host).result = .ok events →
        machine.noted (calls hooks machine host) = none ∧
          (step hooks machine host).machine.pending = none) := by
  obtain ⟨performed, last, hprefix, hne, hsession, hend⟩ := step_end hooks hfree host
  have hflag : ∀ effects : List Effect, effects <+: machine.plan → effects ≠ [] →
      ((applyAll { machine with busy := true } effects).1.halted = true ↔
        machine.halted = true ∨ machine.Stuck) := by
    intro effects heffects hsome
    rw [halted_applyAll, halt_mem_iff_stuck heffects hsome]
  obtain ⟨hlast, -, hcalls⟩ := hsession.undisturbed rfl (.refl _)
  constructor
  · intro call hcall moment hmoment
    obtain ⟨index, hindex⟩ := List.mem_iff_getElem?.mp hcall
    rw [((hcalls index call hindex).sameWork_of_mem_moments hmoment).halted_eq]
    refine hflag _ ((List.take_prefix _ _).trans hprefix) ?_
    simpa using hne
  · obtain hrestarted | ⟨hmachine, hnote⟩ := hend
    · exact .inl hrestarted
    · rw [hmachine]
      refine .inr ⟨?_, ?_, hlast.input_eq.trans (applyAll_input _ _), hnote⟩
      · exact (Bool.eq_iff_iff.mp hlast.halted_eq).trans (hflag performed hprefix hne)
      · intro hstuck
        have hhalt : .halt ∈ performed := (halt_mem_iff_stuck hprefix hne).mpr hstuck
        exact hsession.status_ne_running_of_halt rfl hhalt

/-! ### The flag in an operation -/

/-- A flag that is the same at some moments stays as it is from each to the next. -/
theorem pairwise_halted_of_iff {moments : List Machine} {P : Prop}
    (h : ∀ moment ∈ moments, (moment.halted = true ↔ P)) :
    moments.Pairwise fun earlier later => earlier.halted = true → later.halted = true := by
  rw [List.pairwise_iff_forall_sublist]
  intro earlier later hsub hset
  have hearlier := h earlier (hsub.subset (by simp))
  have hlater := h later (hsub.subset (by simp))
  exact hlater.mpr (hearlier.mp hset)

theorem keepsFlag_step (hooks : Hooks σ ε) (hfree : machine.busy = false) (host : σ) :
    KeepsFlag machine (calls hooks machine host) (step hooks machine host).machine := by
  obtain ⟨hmoments, hend⟩ := step_flag hooks hfree host
  have hflag : ∀ moment ∈ (calls hooks machine host).flatMap Call.moments,
      (moment.halted = true ↔ machine.halted = true ∨ machine.Stuck) := by
    intro moment hmem
    obtain ⟨call, hcall, hmem⟩ := List.mem_flatMap.mp hmem
    exact hmoments call hcall moment hmem
  constructor
  · refine List.pairwise_cons.mpr ⟨?_, pairwise_halted_of_iff hflag⟩
    intro moment hmem hset
    exact (hflag moment hmem).mpr (.inl hset)
  · intro hgiven hunset
    obtain ⟨moment, hmem, hset⟩ := hgiven
    rcases hend with hrestarted | ⟨hafter, -⟩
    · exact hrestarted
    · have hstuck : machine.halted = true ∨ machine.Stuck := by
        rcases List.mem_cons.mp hmem with rfl | hmem
        · exact .inl hset
        · exact (hflag moment hmem).mp hset
      rw [hafter.mpr hstuck] at hunset
      cases hunset

/-- Without calls the flag stays as it is. -/
theorem keepsFlag_nil {after : Machine} (h : after.halted = machine.halted) :
    KeepsFlag machine [] after := by
  refine ⟨List.pairwise_singleton _ _, ?_⟩
  intro hgiven hunset
  obtain ⟨moment, hmem, hset⟩ := hgiven
  rw [List.mem_singleton.mp hmem, ← h, hunset] at hset
  cases hset

theorem KeepsFlag.withStatus {calls : List Call} {after : Machine} {status : Status}
    (h : KeepsFlag { machine with status } calls after) : KeepsFlag machine calls after := by
  obtain ⟨hkept, hcleared⟩ := h
  obtain ⟨hfirst, hrest⟩ := List.pairwise_cons.mp hkept
  refine ⟨List.pairwise_cons.mpr ⟨hfirst, hrest⟩, ?_⟩
  intro hgiven
  apply hcleared
  obtain ⟨moment, hmem, hset⟩ := hgiven
  rcases List.mem_cons.mp hmem with rfl | hmem
  · exact ⟨{ moment with status }, List.mem_cons_self, hset⟩
  · exact ⟨moment, List.mem_cons_of_mem _ hmem, hset⟩

/-- A step in which the flag is never set, and in which no request to start over is made or met, can
be put in front. -/
theorem KeepsFlag.append {next after : Machine} {calls later : List Call}
    (h : KeepsFlag next later after)
    (hunset : ∀ moment ∈ machine.moments calls, moment.halted = false)
    (hautomaton : next.automaton = machine.automaton) (hmargin : next.margin = machine.margin)
    (hinput : next.input = machine.input) (hnoted : machine.noted calls = none)
    (hpending : next.pending = none) : KeepsFlag machine (calls ++ later) after := by
  obtain ⟨hkept, hcleared⟩ := h
  constructor
  · rw [moments_append, List.pairwise_append]
    refine ⟨pairwise_halted_of_iff (P := False) ?_, (List.pairwise_cons.mp hkept).2, ?_⟩
    · intro moment hmem
      rw [hunset moment hmem]
      simp
    · intro moment hmem later _ hset
      rw [hunset moment hmem] at hset
      cases hset
  · intro hgiven hafter
    obtain ⟨moment, hmem, hset⟩ := hgiven
    rw [moments_append] at hmem
    rcases List.mem_append.mp hmem with hmem | hmem
    · rw [hunset moment hmem] at hset
      cases hset
    · obtain ⟨content, hcontent, hstart⟩ :=
        hcleared ⟨moment, List.mem_cons_of_mem _ hmem, hset⟩ hafter
      refine ⟨content, ?_, by rw [hstart, hautomaton, hmargin]⟩
      rw [noted, hpending, Option.or_none, hinput] at hcontent
      rw [noted_append, hnoted, Option.or_none, hcontent]

theorem stepWhileRunning_of_not_running (hooks : Hooks σ ε) (h : machine.status ≠ .running)
    (limit taken : Nat) (host : σ) :
    stepWhileRunning hooks limit taken machine host = { machine, host, result := .ok taken } := by
  cases limit with
  | zero => rw [stepWhileRunning, if_neg h]
  | succ limit => rw [stepWhileRunning, if_neg h]

/-- A step behind which a run goes on did not find the machine stuck, so the flag was not set before
it and is not set in it. Nor was a request to start over made in it or met by it. -/
theorem KeepsFlag.append_step {hooks : Hooks σ ε} {host : σ} {events : List Event}
    {after : Machine} {later : List Call} (h : Kept automaton margin HaltsTruly machine)
    (hresult : (step hooks machine host).result = .ok events)
    (hrunning : (step hooks machine host).machine.status = .running)
    (hlater : KeepsFlag (step hooks machine host).machine later after) :
    KeepsFlag machine (calls hooks machine host ++ later) after := by
  obtain ⟨hmoments, hend⟩ := step_flag hooks h.free host
  obtain ⟨content, -, hstart⟩ | ⟨-, hstopped, hinput, hnote⟩ := hend
  · rw [hstart] at hrunning
    cases hrunning
  have hunstuck : ¬ machine.Stuck := fun hstuck => hstopped hstuck hrunning
  have hunset : ¬ (machine.halted = true ∨ machine.Stuck) := by
    rintro (hset | hstuck)
    · exact hunstuck (h.holds hset)
    · exact hunstuck hstuck
  have hnever : ∀ moment ∈ machine.moments (calls hooks machine host), moment.halted = false := by
    intro moment hmem
    rw [← Bool.not_eq_true]
    intro hset
    rcases List.mem_cons.mp hmem with rfl | hmem
    · exact hunset (.inl hset)
    · obtain ⟨call, hcall, hmem⟩ := List.mem_flatMap.mp hmem
      exact hunset ((hmoments call hcall moment hmem).mp hset)
  have hnext := (h.step (invariant_haltsTruly automaton margin) hooks host).2
  exact hlater.append hnever (hnext.automaton.trans h.automaton.symm)
    (hnext.margin.trans h.margin.symm) hinput (hnote events hresult).1 (hnote events hresult).2

theorem keepsFlag_stepWhileRunning (hooks : Hooks σ ε) (limit taken : Nat)
    (h : Kept automaton margin HaltsTruly machine) (host : σ) (log : List Call) :
    ∃ calls, (stepWhileRunning hooks.recorded limit taken machine (host, log)).host.2 =
        log ++ calls ∧
      KeepsFlag machine calls
        (stepWhileRunning hooks.recorded limit taken machine (host, log)).machine := by
  induction limit generalizing machine taken host log with
  | zero =>
    refine ⟨[], (List.append_nil log).symm, keepsFlag_nil ?_⟩
    rw [stepWhileRunning]
    split <;> rfl
  | succ limit ih =>
    by_cases hrunning : machine.status = .running
    · have hstep := keepsFlag_step hooks h.free host
      rw [stepWhileRunning, if_pos hrunning, step_recorded]
      cases hresult : (step hooks machine host).result with
      | error fault => exact ⟨calls hooks machine host, rfl, hstep⟩
      | ok events =>
        by_cases hgoes : (step hooks machine host).machine.status = .running
        · have hnext := (h.step (invariant_haltsTruly automaton margin) hooks host).2
          obtain ⟨later, hlog, hlater⟩ := ih (taken + 1) hnext (step hooks machine host).host
            (log ++ calls hooks machine host)
          refine ⟨calls hooks machine host ++ later, ?_, .append_step h hresult hgoes hlater⟩
          rw [← List.append_assoc]
          exact hlog
        · dsimp only
          rw [stepWhileRunning_of_not_running _ hgoes]
          exact ⟨calls hooks machine host, rfl, hstep⟩
    · rw [stepWhileRunning_of_not_running _ hrunning]
      exact ⟨[], (List.append_nil log).symm, keepsFlag_nil rfl⟩

theorem keepsFlag_run (hooks : Hooks σ ε) (limit : Int)
    (h : Kept automaton margin HaltsTruly machine) (host : σ) :
    KeepsFlag machine (run hooks.recorded limit machine (host, [])).host.2
      (run hooks.recorded limit machine (host, [])).machine := by
  rw [run, if_neg (by rw [h.free]; exact Bool.false_ne_true)]
  have hrunning := h.withStatus (invariant_haltsTruly automaton margin) .running
  obtain ⟨calls, hlog, hkeeps⟩ := keepsFlag_stepWhileRunning hooks limit.toNat 0 hrunning host []
  rw [hlog]
  exact hkeeps.withStatus

/-- An operation that does not start the machine over by itself leaves the flag set, or a callback
started it over. -/
theorem keepsFlag_operation (h : Kept automaton margin HaltsTruly machine)
    {operation : Operation σ ε} {host : σ} {outcome : Outcome (σ × List Call) ε Reply}
    (hends : operation.recorded.Ends machine (host, []) outcome) :
    (operation = .stop ∨ ∃ content, operation = .reset content) ∨
      KeepsFlag machine outcome.host.2 outcome.machine := by
  cases operation with
  | step hooks =>
    subst hends
    rw [step_recorded]
    exact .inr (keepsFlag_step hooks h.free host)
  | run hooks limit =>
    cases limit with
    | some limit =>
      subst hends
      exact .inr (keepsFlag_run hooks limit h host)
    | none =>
      obtain ⟨limit, rfl, -⟩ := hends
      exact .inr (keepsFlag_run hooks limit h host)
  | pause =>
    simp only [Operation.recorded, Operation.Ends, pause] at hends
    split at hends
    · next paused hpaused =>
      subst hends
      split at hpaused
      · obtain rfl := Except.ok.inj hpaused
        exact .inr (keepsFlag_nil rfl)
      · cases hpaused
    · subst hends
      exact .inr (keepsFlag_nil rfl)
  | stop => exact .inl (.inl rfl)
  | reset content => exact .inl (.inr ⟨content, rfl⟩)

/-! ### Steps of a machine that halted -/

/-- Halting again does not change the work of a machine. -/
theorem halt_sameWork (h : machine.halted = true) :
    (Effect.halt.apply machine).1.SameWork machine :=
  ⟨.stopped, machine.pending, by rw [Effect.apply, ← h]⟩

theorem SameWork.free {last : Machine} (h : last.SameWork { machine with busy := true })
    (hfree : machine.busy = false) : { last with busy := false }.SameWork machine := by
  obtain ⟨status, pending, rfl⟩ := h
  exact ⟨status, pending, by rw [← hfree]⟩

/-- A step from a machine that halted has one effect, which was there already. -/
theorem rests_of_halted (hooks : Hooks σ ε) (hfree : machine.busy = false)
    (h : machine.HaltsTruly) (hhalted : machine.halted = true) (host : σ) :
    Rests hooks machine host := by
  obtain ⟨performed, last, hprefix, hne, hsession, hend⟩ := step_end hooks hfree host
  have hperformed : performed = [.halt] := by
    obtain ⟨effect, rest, rfl⟩ := List.exists_cons_of_ne_nil hne
    rw [plan_of_no_case (h hhalted), List.cons_prefix_cons, List.prefix_nil] at hprefix
    obtain ⟨rfl, rfl⟩ := hprefix
    rfl
  subst hperformed
  have hhalt : (applyAll { machine with busy := true } [.halt]).1.SameWork
      { machine with busy := true } := halt_sameWork hhalted
  obtain ⟨hlast, hevents, hcalls⟩ := hsession.undisturbed rfl (.refl _)
  obtain ⟨call, hcall⟩ : ∃ call, calls hooks machine host = [call] := by
    have hlength := congrArg List.length hevents
    rw [List.length_map] at hlength
    exact List.length_eq_one_iff.mp hlength
  refine ⟨?_, ?_, ?_⟩
  · rw [hcall] at hevents hcalls
    exact ⟨call, hcall, (List.cons.inj hevents).1, (hcalls 0 call rfl).trans hhalt⟩
  · intro events hresult
    obtain ⟨_, _, -, -, hdone | ⟨-, fault, hfault⟩⟩ := step_cases hooks hfree host
    · rw [← Except.ok.inj (hdone.2.2.symm.trans hresult)]
      exact hevents
    · cases hfault.symm.trans hresult
  · obtain hrestarted | ⟨hmachine, -⟩ := hend
    · exact .inr hrestarted
    · rw [hmachine]
      exact .inl ((hlast.trans hhalt).free hfree)

theorem Kept.stepTimes {P : Machine → Prop} (h : Kept automaton margin P machine)
    (hinv : Invariant automaton margin P) (hooks : Hooks σ ε) (count : Nat) (host : σ) :
    Kept automaton margin P (stepTimes hooks count machine host).1 := by
  induction count generalizing machine host with
  | zero => exact h
  | succ count ih => exact ih (h.step hinv hooks host).2 _

/-- In every history a flag that is set tells that there is no case, in callbacks, between
operations and between the steps of a run. So a step from there does nothing but say so again, and
the flag is cleared only where the machine starts over: from outside, or when a step meets a
request, which is then one that was made in a callback of it or that an earlier error left
waiting. -/
theorem halting_is_stable {automaton : Automaton} {width : Int}
    (hinitial : automaton.initialState?.isSome = true) (hwidth : 1 ≤ width) (content : Text) :
    ∃ built, build automaton width content = .ok built ∧
      ∀ (operations : List (Operation σ ε)) (host : σ) (reports : List (Report ε))
        (machine : Machine), Course operations built host reports machine →
        (machine.HaltsTruly ∧ ∀ report ∈ reports, report.machine.HaltsTruly ∧
          ∀ call ∈ report.calls, call.Throughout HaltsTruly) ∧
        (∀ (hooks : Hooks σ ε) (status : Status) (count : Nat) (host : σ),
          let before := stepTimes hooks count { machine with status } host
          before.1.HaltsTruly ∧ (before.1.halted = true → Rests hooks before.1 before.2)) ∧
        machine.ledger = Ledger.ofHistory content operations reports ∧
        ∀ (operation : Operation σ ε) (host : σ) (outcome : Outcome (σ × List Call) ε Reply),
          operation.recorded.Ends machine (host, []) outcome →
            (operation = .stop ∨ ∃ content, operation = .reset content) ∨
              KeepsFlag machine outcome.host.2 outcome.machine := by
  obtain ⟨margin, hbuild⟩ := exists_margin_build_eq hinitial hwidth
  refine ⟨_, hbuild content, ?_⟩
  intro operations host reports machine hcourse
  have hinv := invariant_haltsTruly automaton margin
  obtain ⟨hkept, hreports⟩ := (hinv.kept_start content).course hcourse hinv
  have htrivial : Invariant automaton margin fun _ => True :=
    ⟨fun _ => trivial, fun _ _ _ _ _ => trivial, fun _ _ _ _ => trivial⟩
  have hledger : Ledger.ofHistory content operations reports = machine.ledger :=
    Ledger.follow_course hcourse (htrivial.kept_start content) htrivial
  refine ⟨⟨hkept.holds, hreports⟩, ?_, hledger.symm, ?_⟩
  · intro hooks status count host
    have hbefore := (hkept.withStatus hinv status).stepTimes hinv hooks count host
    refine ⟨hbefore.holds, ?_⟩
    intro hhalted
    exact rests_of_halted hooks hbefore.free hbefore.holds hhalted _
  · intro operation host outcome hends
    exact keepsFlag_operation hkept hends

/-- Asks to start over when it is told that there was no case, and then lets an error out. -/
def objector : Hooks Unit Unit :=
  { Hooks.silent with
    onFinished := fun _ _ _ => .ask (.reset ['z']) fun _ _ => .raise () (.host ()) }

/-- The scribe halts in a run. Told so, the objector asks it to start over and lets an error out, so
it stays where it is, and the step after that meets the request. -/
theorem halting_is_stable_objector :
    scribe.automaton.initialState?.isSome = true ∧ (1 : Int) ≤ 2 ∧
      build scribe.automaton 2 ['a'] = .ok scribe ∧
      ∃ (reports : List (Report Unit)) (machine : Machine),
        Course [.run Hooks.silent (some 5), .step objector] scribe () reports machine ∧
        machine.halted = true ∧ machine.HaltsTruly ∧
        machine.ledger = { inForce := ['a'], waiting := some ['z'] } ∧
        Rests objector machine () ∧
        (step (Hooks.silent : Hooks Unit Unit) machine ()).machine.halted = false ∧
        KeepsFlag machine (calls (Hooks.silent : Hooks Unit Unit) machine ())
          (step (Hooks.silent : Hooks Unit Unit) machine ()).machine := by
  have hbuild : build scribe.automaton 2 ['a'] = .ok scribe := rfl
  have hinitial : scribe.automaton.initialState?.isSome = true := by decide
  have hwidth : (1 : Int) ≤ 2 := by decide
  obtain ⟨built, hbuilt, hhistory⟩ :=
    @halting_is_stable Unit Unit scribe.automaton 2 hinitial hwidth ['a']
  obtain rfl := Except.ok.inj (hbuild.symm.trans hbuilt)
  have hcourse : Course [.run Hooks.silent (some 5), .step objector] scribe () _ _ :=
    .cons rfl (.cons rfl (.nil _ _))
  obtain ⟨⟨htrue, -⟩, hrests, hledger, hkeeps⟩ := hhistory _ _ _ _ hcourse
  refine ⟨hinitial, hwidth, hbuild, _, _, hcourse, rfl, htrue, hledger, ?_, rfl, ?_⟩
  · exact (hrests objector _ 0 ()).2 rfl
  · obtain hover | hkept := hkeeps (.step Hooks.silent) () _ rfl
    · simp at hover
    · exact hkept

end Machine

end TapeMachine
