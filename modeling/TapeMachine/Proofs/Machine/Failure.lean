import TapeMachine.Proofs.Machine.Halting

/-!
# TapeMachine.Proofs.Machine.Failure

What an error that leaves a callback comes to.

The error ends the step at once and is what the operation ends with. The effects that the step had
so far stay, and nothing else of it is seen: the status is the one that was set last, and a request
to start over waits. The flag `busy` is released all the same, so the machine can be used again, and
it is set in every callback, so that callbacks cannot step or run the machine.

* `Machine.Fails` — an error leaves a certain callback of a step.
* `Machine.Partway` — what a step has come to when it tells of an event.
* `Machine.CutShort` — what is left of a step when an error leaves a callback.
* `Operation.Enters` — the steps that an operation gets to.
* `Call.Guarded` — the machine is busy all along a call.

A step that fails performs the effects before the callback, and then one more
(`perform_append_of_ok`), so its calls are a `Session` of the first effects of the plan
(`Fails.exists_session`). All that is said of the machine is read off that session.
-/

namespace TapeMachine

variable {σ ε : Type}

namespace Outcome

variable {α β γ : Type}

theorem map_id' (outcome : Outcome σ ε α) : outcome.map (fun value => value) = outcome := by
  obtain ⟨machine, host, result⟩ := outcome
  cases result <;> rfl

theorem map_map (f : α → β) (g : β → γ) (outcome : Outcome σ ε α) :
    (outcome.map f).map g = outcome.map fun value => g (f value) := by
  obtain ⟨machine, host, result⟩ := outcome
  cases result <;> rfl

theorem exists_of_map_eq_ok {f : α → β} {outcome : Outcome σ ε α} {value : β}
    (h : (outcome.map f).result = .ok value) :
    ∃ given, outcome.result = .ok given ∧ f given = value := by
  obtain ⟨machine, host, result⟩ := outcome
  cases result with
  | error fault => cases h
  | ok given => exact ⟨given, rfl, Except.ok.inj h⟩

theorem error_of_map_eq_error {f : α → β} {outcome : Outcome σ ε α} {fault : Fault ε}
    (h : (outcome.map f).result = .error fault) : outcome.result = .error fault := by
  obtain ⟨machine, host, result⟩ := outcome
  cases result with
  | error given => exact congrArg Except.error (Except.error.inj h)
  | ok given => cases h

theorem map_of_error {outcome : Outcome σ ε α} {fault : Fault ε}
    (h : outcome.result = .error fault) (f : α → β) :
    outcome.map f =
      { machine := outcome.machine, host := outcome.host, result := .error fault } := by
  rw [map, h]
  rfl

end Outcome

/-! ### Setting the status -/

/-- The status that a step sets when it has the effect that an event tells of. -/
def Event.sets? : Event → Option Status
  | .finished _ => some .stopped
  | .replaced _ _ _ | .moved _ _ | .switched _ => none

/-- The status that a request sets if it is granted. -/
def Machine.Request.sets? : Request → Option Status
  | .pause => some .paused
  | .stop | .reset _ => some .stopped
  | .step | .run _ => none

/-- The status that a request of a callback sets. -/
def Exchange.sets? (exchange : Exchange) : Option Status :=
  if exchange.refusal.isSome then none else exchange.request.sets?

/-- All that is set along some calls, by the step and by the callbacks, in order. -/
def Call.settings (calls : List Call) : List Status :=
  calls.flatMap fun call => call.event.sets?.toList ++ call.exchanges.filterMap Exchange.sets?

theorem Effect.apply_status (effect : Effect) (machine : Machine) :
    (effect.apply machine).1.status = (effect.apply machine).2.sets?.getD machine.status := by
  cases effect <;> rfl

theorem Exchange.Contained.status {exchange : Exchange} (h : exchange.Contained) :
    exchange.after.status = exchange.sets?.getD exchange.before.status := by
  unfold Exchange.sets?
  cases hrequest : exchange.request with
  | step =>
    obtain ⟨hrefusal, hafter⟩ := h.step hrequest
    rw [hrefusal, hafter]
    rfl
  | run limit =>
    obtain ⟨hrefusal, hafter⟩ := h.run limit hrequest
    rw [hrefusal, hafter]
    rfl
  | pause =>
    have hpause := h.pause hrequest
    split at hpause
    · rw [hpause.1, hpause.2]
      rfl
    · rw [hpause.1, hpause.2]
      rfl
  | stop =>
    obtain ⟨hrefusal, hafter⟩ := h.restart exchange.before.input (by rw [hrequest]; rfl)
    rw [hrefusal, hafter]
    rfl
  | reset content =>
    obtain ⟨hrefusal, hafter⟩ := h.restart content (by rw [hrequest]; rfl)
    rw [hrefusal, hafter]
    rfl

/-- The last one of two rows that are put together decides. -/
theorem getD_getLast?_append {α : Type} (earlier later : List α) (start : α) :
    (earlier ++ later).getLast?.getD start =
      later.getLast?.getD (earlier.getLast?.getD start) := by
  rw [List.getLast?_append]
  cases later.getLast? <;> rfl

theorem Dialogue.status {machine last : Machine} {exchanges : List Exchange}
    (h : Dialogue machine exchanges last) (hbusy : machine.busy = true) :
    last.status = (exchanges.filterMap Exchange.sets?).getLast?.getD machine.status := by
  induction h with
  | silence machine => rfl
  | @ask exchange rest last hanswered _ ih =>
    have hcontained := hanswered.contained hbusy
    rw [ih (hcontained.sameWork.busy_eq.trans hbusy), hcontained.status,
      ← List.singleton_append (l := rest), List.filterMap_append, getD_getLast?_append]
    cases hsets : exchange.sets? <;> simp [hsets]

/-- When some calls are over the status is the one that was set last in them. -/
theorem Session.status {machine last : Machine} {effects : List Effect} {calls : List Call}
    (h : Session machine effects calls last) (hbusy : machine.busy = true) :
    last.status = (Call.settings calls).getLast?.getD machine.status := by
  induction h with
  | rest machine => rfl
  | @call machine next last effect effects exchanges calls hdialogue _ ih =>
    have hfirstBusy := (effect.apply_busy machine).trans hbusy
    have hnextBusy := (hdialogue.contained hfirstBusy).1.busy_eq.trans hfirstBusy
    rw [ih hnextBusy, hdialogue.status hfirstBusy, effect.apply_status, Call.settings,
      Call.settings, List.flatMap_cons, getD_getLast?_append, getD_getLast?_append]
    cases (effect.apply machine).2.sets? <;> rfl

/-- Two stretches of effects are one. -/
theorem Session.append {machine next last : Machine} {effects more : List Effect}
    {calls later : List Call} (h : Session machine effects calls next)
    (hlater : Session next more later last) :
    Session machine (effects ++ more) (calls ++ later) last := by
  induction h with
  | rest machine => exact hlater
  | call hdialogue _ ih => exact .call hdialogue (ih hlater)

namespace Machine

variable {hooks : Hooks σ ε} {machine : Machine} {host : σ}

/-! ### Effects up to a callback -/

/-- What the callback comes to that is called for an effect on a machine. -/
def callback (hooks : Hooks σ ε) (effect : Effect) (machine : Machine) (host : σ) :
    Outcome σ ε Unit :=
  (hooks.respond (effect.apply machine).1 host (effect.apply machine).2).play
    (effect.apply machine).1

/-- Recording adds the call of a callback to the log and changes nothing else. -/
theorem exists_callback_recorded (hooks : Hooks σ ε) (effect : Effect) (machine : Machine)
    (host : σ) :
    ∃ exchanges,
      Dialogue (effect.apply machine).1 exchanges (callback hooks effect machine host).machine ∧
      ∀ log, callback hooks.recorded effect machine (host, log) =
        { machine := (callback hooks effect machine host).machine
          host := ((callback hooks effect machine host).host,
            log ++ [{ event := (effect.apply machine).2
                      machine := (effect.apply machine).1
                      exchanges }])
          result := (callback hooks effect machine host).result } := by
  obtain ⟨exchanges, hdialogue, hplay⟩ := Script.play_record
    (hooks.respond (effect.apply machine).1 host (effect.apply machine).2) (effect.apply machine).1
  refine ⟨exchanges, hdialogue, fun log => ?_⟩
  rw [callback, Hooks.respond_recorded, hplay, List.nil_append]
  rfl

theorem perform_cons_of_error {effect : Effect} {fault : Fault ε}
    (h : (callback hooks effect machine host).result = .error fault) (effects : List Effect) :
    perform hooks (effect :: effects) machine host =
      { machine := (callback hooks effect machine host).machine
        host := (callback hooks effect machine host).host
        result := .error fault } := by
  unfold callback at h
  simp only [perform, h]
  rfl

theorem perform_cons_of_ok {effect : Effect}
    (h : (callback hooks effect machine host).result = .ok ()) (effects : List Effect) :
    perform hooks (effect :: effects) machine host =
      (perform hooks effects (callback hooks effect machine host).machine
        (callback hooks effect machine host).host).map ((effect.apply machine).2 :: ·) := by
  unfold callback at h
  simp only [perform, h]
  rfl

/-- Effects behind others are performed if no error left a callback of those. -/
theorem perform_append_of_ok {effects : List Effect} {events : List Event}
    (h : (perform hooks effects machine host).result = .ok events) (more : List Effect) :
    perform hooks (effects ++ more) machine host =
      (perform hooks more (perform hooks effects machine host).machine
        (perform hooks effects machine host).host).map (events ++ ·) := by
  induction effects generalizing machine host events with
  | nil =>
    obtain rfl := Except.ok.inj h
    exact (Outcome.map_id' _).symm
  | cons effect effects ih =>
    cases hcallback : (callback hooks effect machine host).result with
    | error fault =>
      rw [perform_cons_of_error hcallback] at h
      cases h
    | ok returned =>
      rw [List.cons_append, perform_cons_of_ok hcallback]
      rw [perform_cons_of_ok hcallback] at h ⊢
      obtain ⟨later, hlater, rfl⟩ := Outcome.exists_of_map_eq_ok h
      rw [ih hlater, Outcome.map_map]
      rfl

/-- Where performing effects ends in an error, it left the callback of one of them, and the
callbacks before returned. -/
theorem exists_of_perform_error {effects : List Effect} {fault : Fault ε}
    (h : (perform hooks effects machine host).result = .error fault) :
    ∃ (index : Nat) (effect : Effect) (events : List Event), effects[index]? = some effect ∧
      (perform hooks (effects.take index) machine host).result = .ok events ∧
      (callback hooks effect (perform hooks (effects.take index) machine host).machine
        (perform hooks (effects.take index) machine host).host).result = .error fault := by
  induction effects generalizing machine host with
  | nil => cases h
  | cons effect effects ih =>
    cases hcallback : (callback hooks effect machine host).result with
    | error given =>
      rw [perform_cons_of_error hcallback] at h
      obtain rfl := Except.error.inj h
      exact ⟨0, effect, [], rfl, rfl, hcallback⟩
    | ok returned =>
      rw [perform_cons_of_ok hcallback] at h
      obtain ⟨index, failing, events, hfailing, hevents, hfault⟩ :=
        ih (Outcome.error_of_map_eq_error h)
      refine ⟨index + 1, failing, (effect.apply machine).2 :: events, hfailing, ?_, ?_⟩
      · rw [List.take_succ_cons, perform_cons_of_ok hcallback, Outcome.map, hevents]
        rfl
      · rw [List.take_succ_cons, perform_cons_of_ok hcallback]
        exact hfault

/-- Where an error leaves the callback of an effect, the effects up to that one are performed, with
their calls, and no others. -/
theorem exists_session_of_callback_error {earlier : List Effect} {effect : Effect}
    {events : List Event} {fault : Fault ε}
    (hevents : (perform hooks earlier machine host).result = .ok events)
    (hfault : (callback hooks effect (perform hooks earlier machine host).machine
      (perform hooks earlier machine host).host).result = .error fault) (later : List Effect) :
    ∃ last left calls, Session machine (earlier ++ [effect]) calls last ∧
      perform hooks (earlier ++ effect :: later) machine host =
        { machine := last, host := left, result := .error fault } ∧
      ∀ log, perform hooks.recorded (earlier ++ effect :: later) machine (host, log) =
        { machine := last, host := (left, log ++ calls), result := .error fault } := by
  obtain ⟨performed, calls, -, hsession, hok, hlog⟩ := perform_recorded hooks earlier machine host
  rw [(hok events hevents).1] at hsession
  obtain ⟨exchanges, hdialogue, hcallback⟩ := exists_callback_recorded hooks effect
    (perform hooks earlier machine host).machine (perform hooks earlier machine host).host
  have hwhole := perform_append_of_ok hevents (effect :: later)
  rw [perform_cons_of_error hfault] at hwhole
  refine ⟨_, _, _, hsession.append (.call hdialogue (.rest _)), hwhole, fun log => ?_⟩
  have hlogged : (perform hooks.recorded earlier machine (host, log)).result = .ok events := by
    rw [hlog]
    exact hevents
  have hraised := (congrArg Outcome.result (hcallback (log ++ calls))).trans hfault
  have hrecorded := perform_append_of_ok hlogged (effect :: later)
  rw [hlog, perform_cons_of_error hraised, hcallback, List.append_assoc] at hrecorded
  exact hrecorded

/-! ### Steps -/

/-- In a step, an error leaves the callback for the effect with the given index. The callbacks
before it return. -/
def Fails (hooks : Hooks σ ε) (machine : Machine) (host : σ) (index : Nat) (fault : Fault ε) :
    Prop :=
  ∃ effect events, machine.plan[index]? = some effect ∧
    let before := perform hooks (machine.plan.take index) { machine with busy := true } host
    before.result = .ok events ∧
      (callback hooks effect before.machine before.host).result = .error fault

/-- What a step has come to when it tells of an event, status and note aside. -/
inductive Partway (machine : Machine) : Event → Machine → Prop where
  /-- It has written. -/
  | replaced {case : Case} :
    machine.automaton.case? machine.state machine.tape.head = some case →
    Partway machine
      (.replaced (machine.tape.write case.replacement) machine.tape.head case.replacement)
      { machine with tape := machine.tape.write case.replacement }
  /-- It has written and moved. -/
  | moved {case : Case} :
    machine.automaton.case? machine.state machine.tape.head = some case →
    Partway machine
      (.moved ((machine.tape.write case.replacement).move case.direction) case.direction)
      { machine with tape := (machine.tape.write case.replacement).move case.direction }
  /-- It has written, moved, switched state and counted that. -/
  | switched {case : Case} :
    machine.automaton.case? machine.state machine.tape.head = some case →
    Partway machine (.switched case.target)
      { machine with
        tape := (machine.tape.write case.replacement).move case.direction
        state := case.target
        steps := machine.steps + 1 }
  /-- It found no case. -/
  | finished :
    machine.automaton.case? machine.state machine.tape.head = none →
    Partway machine (.finished machine.tape) { machine with halted := true }

/-- What is left of a step when an error leaves the callback for the effect with the given index. -/
structure CutShort (hooks : Hooks σ ε) (machine : Machine) (host : σ) (index : Nat)
    (fault : Fault ε) : Prop where
  /-- The step ends with that error. -/
  result : (step hooks machine host).result = .error fault
  /-- The callbacks were called for the events of the step without callbacks, up to that one. -/
  events : (calls hooks machine host).map Call.event = machine.advance.2.take (index + 1)
  /-- The machine is the one that the step had come to by then. Its status is the one that the step
  and the callbacks set last, and a request to start over is no more than noted. -/
  machine : ∃ event part, machine.advance.2[index]? = some event ∧ machine.Partway event part ∧
    (step hooks machine host).machine =
      { part with
        status := (Call.settings (calls hooks machine host)).getLast?.getD machine.status
        pending := machine.noted (calls hooks machine host) }

/-- The calls of a step that fails are a session of its first effects. -/
theorem Fails.exists_session {index : Nat} {fault : Fault ε}
    (h : Fails hooks machine host index fault) (hfree : machine.busy = false) :
    ∃ last, index < machine.plan.length ∧
      Session { machine with busy := true } (machine.plan.take (index + 1))
        (calls hooks machine host) last ∧
      (step hooks machine host).machine = { last with busy := false } ∧
      (step hooks machine host).result = .error fault := by
  obtain ⟨effect, events, heffect, hevents, hfault⟩ := h
  obtain ⟨hindex, heffect⟩ := List.getElem?_eq_some_iff.mp heffect
  have hplan :
      machine.plan.take index ++ effect :: machine.plan.drop (index + 1) = machine.plan := by
    rw [← heffect, List.getElem_cons_drop, List.take_append_drop]
  obtain ⟨last, left, recorded, hsession, hperform, hlog⟩ :=
    exists_session_of_callback_error hevents hfault (machine.plan.drop (index + 1))
  rw [hplan] at hperform hlog
  have hcalls : calls hooks machine host = recorded := by
    simp only [calls, step, hfree, hlog, Bool.false_eq_true, if_false, List.nil_append]
  have hstep : step hooks machine host =
      { machine := { last with busy := false }, host := left, result := .error fault } := by
    simp only [step, hfree, hperform, Bool.false_eq_true, if_false]
  refine ⟨last, hindex, ?_, by rw [hstep], by rw [hstep]⟩
  rw [hcalls, List.take_succ_eq_append_getElem hindex, heffect]
  exact hsession

theorem applyAll_take_events (effects : List Effect) (machine : Machine) (count : Nat) :
    (machine.applyAll (effects.take count)).2 = (machine.applyAll effects).2.take count := by
  induction effects generalizing machine count with
  | nil => rw [List.take_nil, applyAll, List.take_nil]
  | cons effect effects ih =>
    cases count with
    | zero => rfl
    | succ count => exact congrArg (_ :: ·) (ih _ count)

/-- Behind each effect of a step the machine is partway. -/
theorem exists_partway {index : Nat} (h : index < machine.plan.length) :
    ∃ event part, machine.advance.2[index]? = some event ∧ machine.Partway event part ∧
      ∃ status, machine.inFlight (index + 1) = { part with status, busy := true } := by
  cases hcase : machine.automaton.case? machine.state machine.tape.head with
  | none =>
    rw [plan_of_no_case hcase, List.length_singleton, Nat.lt_one_iff] at h
    subst h
    simp only [advance, inFlight, plan_of_no_case hcase]
    exact ⟨_, _, rfl, .finished hcase, _, rfl⟩
  | some case =>
    rw [plan_of_case hcase] at h
    have hbound : index < 3 := h
    simp only [advance, inFlight, plan_of_case hcase]
    obtain rfl | rfl | rfl : index = 0 ∨ index = 1 ∨ index = 2 := by omega
    · exact ⟨_, _, rfl, .replaced hcase, _, rfl⟩
    · exact ⟨_, _, rfl, .moved hcase, _, rfl⟩
    · exact ⟨_, _, rfl, .switched hcase, _, rfl⟩

theorem Partway.busy_eq {event : Event} {part : Machine} (h : machine.Partway event part) :
    part.busy = machine.busy := by
  cases h <;> rfl

/-- An error that leaves a callback cuts the step short. -/
theorem Fails.cutShort {index : Nat} {fault : Fault ε} (h : Fails hooks machine host index fault)
    (hfree : machine.busy = false) : CutShort hooks machine host index fault := by
  obtain ⟨last, hindex, hsession, hmachine, hresult⟩ := h.exists_session hfree
  obtain ⟨hwork, hevents, -⟩ := hsession.undisturbed rfl (.refl _)
  obtain ⟨event, part, hevent, hpart, status, hflight⟩ := exists_partway hindex
  refine ⟨hresult, hevents.trans (applyAll_take_events _ _ _), event, part, hevent, hpart, ?_⟩
  have hstatus := hsession.status rfl
  have hpending := hsession.pending rfl
  change last.SameWork (machine.inFlight (index + 1)) at hwork
  rw [hflight] at hwork
  obtain ⟨now, note, rfl⟩ := hwork
  obtain rfl : now = _ := hstatus
  obtain rfl : note = _ := hpending
  rw [hmachine, ← hpart.busy_eq.trans hfree]
  rfl

/-- A step ends in an error exactly if the error leaves a callback. -/
theorem step_error_iff (hfree : machine.busy = false) (fault : Fault ε) :
    (step hooks machine host).result = .error fault ↔
      ∃ index, Fails hooks machine host index fault := by
  constructor
  · intro h
    have hperform :
        (perform hooks machine.plan { machine with busy := true } host).result = .error fault := by
      simp only [step, hfree, Bool.false_eq_true, if_false] at h
      split at h
      · cases h
      · next given hgiven => rw [hgiven, Except.error.inj h]
    obtain ⟨index, effect, events, hfails⟩ := exists_of_perform_error hperform
    exact ⟨index, effect, events, hfails⟩
  · rintro ⟨index, h⟩
    exact (h.cutShort hfree).result

/-! ### Runs -/

/-- The loop of a run gets to one more step behind so many others. Those ended, and the machine was
running all along. -/
structure Underway (hooks : Hooks σ ε) (machine : Machine) (host : σ) (taken : Nat) : Prop where
  /-- The machine is running before each step. -/
  running : ∀ index ≤ taken, (stepTimes hooks index machine host).1.status = .running
  /-- The steps behind it ended, without an error. -/
  ended : ∀ index < taken, ∃ events,
    (step hooks (stepTimes hooks index machine host).1
      (stepTimes hooks index machine host).2).result = .ok events

theorem underway_zero_iff : Underway hooks machine host 0 ↔ machine.status = .running := by
  constructor
  · intro h
    exact h.running 0 (Nat.le_refl 0)
  · intro h
    refine ⟨fun index hindex => ?_, fun index hindex => absurd hindex (Nat.not_lt_zero index)⟩
    rw [Nat.le_zero.mp hindex]
    exact h

theorem underway_succ_iff {taken : Nat} :
    Underway hooks machine host (taken + 1) ↔
      machine.status = .running ∧ (∃ events, (step hooks machine host).result = .ok events) ∧
        Underway hooks (step hooks machine host).machine (step hooks machine host).host taken := by
  constructor
  · intro h
    refine ⟨h.running 0 (Nat.zero_le _), h.ended 0 (Nat.zero_lt_succ taken), ?_, ?_⟩
    · intro index hindex
      exact h.running (index + 1) (Nat.succ_le_succ hindex)
    · intro index hindex
      exact h.ended (index + 1) (Nat.succ_lt_succ hindex)
  · rintro ⟨hrunning, hended, hlater⟩
    constructor
    · intro index hindex
      cases index with
      | zero => exact hrunning
      | succ index => exact hlater.running index (Nat.le_of_succ_le_succ hindex)
    · intro index hindex
      cases index with
      | zero => exact hended
      | succ index => exact hlater.ended index (Nat.lt_of_succ_lt_succ hindex)

/-- The loop of a run ends with the first step that ends in an error. -/
theorem stepWhileRunning_of_underway {limit taken : Nat} (h : Underway hooks machine host taken)
    (hlimit : taken < limit) {fault : Fault ε}
    (hfault : (step hooks (stepTimes hooks taken machine host).1
      (stepTimes hooks taken machine host).2).result = .error fault) (earlier : Nat) :
    stepWhileRunning hooks limit earlier machine host =
      let failed := step hooks (stepTimes hooks taken machine host).1
        (stepTimes hooks taken machine host).2
      { machine := failed.machine, host := failed.host, result := .error fault } := by
  induction limit generalizing taken earlier machine host with
  | zero => exact absurd hlimit (Nat.not_lt_zero taken)
  | succ limit ih =>
    cases taken with
    | zero =>
      rw [stepWhileRunning, if_pos (underway_zero_iff.mp h)]
      change (step hooks machine host).result = .error fault at hfault
      simp only [hfault]
      rfl
    | succ taken =>
      obtain ⟨hrunning, ⟨events, hevents⟩, hlater⟩ := underway_succ_iff.mp h
      rw [stepWhileRunning, if_pos hrunning]
      simp only [hevents]
      exact ih hlater (Nat.lt_of_succ_lt_succ hlimit) hfault (earlier + 1)

/-- Where the loop of a run ends in an error, that was the error of a step that it got to. -/
theorem exists_underway_of_error {limit earlier : Nat} {fault : Fault ε}
    (h : (stepWhileRunning hooks limit earlier machine host).result = .error fault) :
    ∃ taken < limit, Underway hooks machine host taken ∧
      (step hooks (stepTimes hooks taken machine host).1
        (stepTimes hooks taken machine host).2).result = .error fault := by
  induction limit generalizing earlier machine host with
  | zero => cases h
  | succ limit ih =>
    by_cases hrunning : machine.status = .running
    · rw [stepWhileRunning, if_pos hrunning] at h
      cases hresult : (step hooks machine host).result with
      | error given =>
        simp only [hresult] at h
        obtain rfl := Except.error.inj h
        exact ⟨0, Nat.zero_lt_succ limit, underway_zero_iff.mpr hrunning, hresult⟩
      | ok events =>
        simp only [hresult] at h
        obtain ⟨taken, htaken, hunderway, hfault⟩ := ih h
        exact ⟨taken + 1, Nat.succ_lt_succ htaken,
          underway_succ_iff.mpr ⟨hrunning, ⟨events, hresult⟩, hunderway⟩, hfault⟩
    · rw [stepWhileRunning, if_neg hrunning] at h
      cases h

end Machine

/-! ### Operations -/

/-- An operation gets to a step with the given callbacks, which starts from the given machine and
host. A step is one step. A run gets to steps as long as they end and leave the machine running, and
to no more than its limit says. -/
inductive Operation.Enters (machine : Machine) (host : σ) :
    Operation σ ε → Hooks σ ε → Machine → σ → Prop where
  | step (hooks : Hooks σ ε) : Enters machine host (.step hooks) hooks machine host
  | run {hooks : Hooks σ ε} {limit : Option Int} {taken : Nat} :
    (∀ bound, limit = some bound → (taken : Int) < bound) →
    Machine.Underway hooks { machine with status := .running } host taken →
    Enters machine host (.run hooks limit) hooks
      (Machine.stepTimes hooks taken { machine with status := .running } host).1
      (Machine.stepTimes hooks taken { machine with status := .running } host).2

namespace Machine

variable {hooks : Hooks σ ε} {machine : Machine} {host : σ}

theorem step_free (hooks : Hooks σ ε) (hfree : machine.busy = false) (host : σ) :
    (step hooks machine host).machine.busy = false := by
  obtain ⟨_, last, -, -, ⟨-, hmachine, -⟩ | ⟨hmachine, -⟩⟩ := step_cases hooks hfree host
  · rw [hmachine]
    exact settle_busy last
  · rw [hmachine]

theorem stepTimes_free (hooks : Hooks σ ε) (hfree : machine.busy = false) (count : Nat) (host : σ) :
    (stepTimes hooks count machine host).1.busy = false := by
  induction count generalizing machine host with
  | zero => exact hfree
  | succ count ih => exact ih (step_free hooks hfree host) _

theorem run_of_free (hooks : Hooks σ ε) (hfree : machine.busy = false) (limit : Int) (host : σ) :
    run hooks limit machine host =
      stepWhileRunning hooks limit.toNat 0 { machine with status := .running } host := by
  rw [run, if_neg (by rw [hfree]; exact Bool.false_ne_true)]

/-- A run ends with the first step that ends in an error. -/
theorem run_of_underway (hfree : machine.busy = false) {limit : Int} {taken : Nat}
    (hlimit : (taken : Int) < limit)
    (h : Underway hooks { machine with status := .running } host taken) {fault : Fault ε}
    (hfault : (step hooks (stepTimes hooks taken { machine with status := .running } host).1
      (stepTimes hooks taken { machine with status := .running } host).2).result = .error fault) :
    run hooks limit machine host =
      let failed := step hooks (stepTimes hooks taken { machine with status := .running } host).1
        (stepTimes hooks taken { machine with status := .running } host).2
      { machine := failed.machine, host := failed.host, result := .error fault } := by
  rw [run_of_free hooks hfree]
  exact stepWhileRunning_of_underway h (by omega) hfault 0

/-- Where a run ends in an error, it got to a step that does. -/
theorem exists_underway_of_run_error (hfree : machine.busy = false) {limit : Int}
    {fault : Fault ε} (h : (run hooks limit machine host).result = .error fault) :
    ∃ taken : Nat, (taken : Int) < limit ∧
      Underway hooks { machine with status := .running } host taken ∧
      (step hooks (stepTimes hooks taken { machine with status := .running } host).1
        (stepTimes hooks taken { machine with status := .running } host).2).result =
          .error fault := by
  rw [run_of_free hooks hfree] at h
  obtain ⟨taken, htaken, hunderway, hfault⟩ := exists_underway_of_error h
  exact ⟨taken, by omega, hunderway, hfault⟩

end Machine

namespace Operation

variable {machine : Machine} {host : σ} {operation : Operation σ ε}

theorem Enters.free {hooks : Hooks σ ε} {before : Machine} {now : σ}
    (h : operation.Enters machine host hooks before now) (hfree : machine.busy = false) :
    before.busy = false := by
  cases h with
  | step hooks => exact hfree
  | run hlimit hunderway =>
    exact Machine.stepTimes_free hooks (show { machine with status := .running }.busy = false
      from hfree) _ host

/-- An operation that gets to a step which ends in an error leaves what that step leaves. -/
theorem Enters.ends {hooks : Hooks σ ε} {before : Machine} {now : σ} {fault : Fault ε}
    (h : operation.Enters machine host hooks before now) (hfree : machine.busy = false)
    (hfault : (Machine.step hooks before now).result = .error fault) :
    operation.Ends machine host
      { machine := (Machine.step hooks before now).machine
        host := (Machine.step hooks before now).host
        result := .error fault } := by
  cases h with
  | step hooks => exact (Outcome.map_of_error hfault Reply.events).symm
  | @run _ limit taken hlimit hunderway =>
    cases limit with
    | some bound =>
      have hrun := Machine.run_of_underway hfree (hlimit bound rfl) hunderway hfault
      rw [Ends, hrun]
      rfl
    | none =>
      have hbound : (taken : Int) < ((taken + 1 : Nat) : Int) := by omega
      have hrun := Machine.run_of_underway hfree hbound hunderway hfault
      refine ⟨taken + 1, ?_, fun hcount => by cases hcount⟩
      rw [hrun]
      rfl

/-- Where a run ends in an error, it got to a step that does. The limit of the operation, if it has
one, is that of the run. -/
theorem exists_enters_of_run_error {hooks : Hooks σ ε} (hfree : machine.busy = false) {limit : Int}
    {allowed : Option Int} (hallowed : ∀ bound, allowed = some bound → bound = limit)
    {fault : Fault ε} (h : (machine.run hooks limit host).result = .error fault) :
    ∃ before now, (Operation.run hooks allowed).Enters machine host hooks before now ∧
      (Machine.step hooks before now).result = .error fault ∧
      machine.run hooks limit host =
        { machine := (Machine.step hooks before now).machine
          host := (Machine.step hooks before now).host
          result := .error fault } := by
  obtain ⟨taken, htaken, hunderway, hstep⟩ := Machine.exists_underway_of_run_error hfree h
  refine ⟨_, _, .run ?_ hunderway, hstep, Machine.run_of_underway hfree htaken hunderway hstep⟩
  intro bound hbound
  rw [hallowed bound hbound]
  exact htaken

/-- Where a step or a run ends in an error, it got to a step that does, and leaves what that step
leaves. -/
theorem exists_enters_of_ends (hdrives : operation.Drives) (hfree : machine.busy = false)
    {outcome : Outcome σ ε Reply} (hends : operation.Ends machine host outcome)
    {fault : Fault ε} (hfault : outcome.result = .error fault) :
    ∃ hooks before now, operation.Enters machine host hooks before now ∧
      (Machine.step hooks before now).result = .error fault ∧
      outcome =
        { machine := (Machine.step hooks before now).machine
          host := (Machine.step hooks before now).host
          result := .error fault } := by
  cases operation with
  | step hooks =>
    subst hends
    have hstep := Outcome.error_of_map_eq_error hfault
    exact ⟨hooks, machine, host, .step hooks, hstep, Outcome.map_of_error hstep _⟩
  | run hooks limit =>
    cases limit with
    | some limit =>
      subst hends
      have hlimit : ∀ bound, some limit = some bound → bound = limit := by
        intro bound hbound
        exact (Option.some.inj hbound).symm
      obtain ⟨before, now, henters, hstep, hrun⟩ :=
        exists_enters_of_run_error hfree hlimit (Outcome.error_of_map_eq_error hfault)
      exact ⟨hooks, before, now, henters, hstep, by rw [hrun]; rfl⟩
    | none =>
      obtain ⟨limit, rfl, -⟩ := hends
      have hlimit : ∀ bound, none = some bound → bound = (limit : Int) := by
        intro bound hbound
        cases hbound
      obtain ⟨before, now, henters, hstep, hrun⟩ :=
        exists_enters_of_run_error hfree hlimit (Outcome.error_of_map_eq_error hfault)
      exact ⟨hooks, before, now, henters, hstep, by rw [hrun]; rfl⟩
  | pause => exact hdrives.elim
  | stop => exact hdrives.elim
  | reset content => exact hdrives.elim

end Operation

/-! ### Histories -/

/-- All along a call the machine is busy, and so it refuses to step and to run. -/
structure Call.Guarded (call : Call) : Prop where
  /-- The machine is busy. -/
  busy : ∀ moment ∈ call.moments, moment.busy = true
  /-- What the callback asks comes to what it comes to for a busy machine. -/
  contained : ∀ exchange ∈ call.exchanges, exchange.Contained

namespace Machine

variable {hooks : Hooks σ ε} {machine : Machine} {host : σ}

theorem applyAll_busy (effects : List Effect) (machine : Machine) :
    (machine.applyAll effects).1.busy = machine.busy := by
  induction effects generalizing machine with
  | nil => rfl
  | cons effect effects ih => exact (ih _).trans (effect.apply_busy machine)

theorem guarded_step (hooks : Hooks σ ε) (hfree : machine.busy = false) (host : σ) :
    ∀ call ∈ calls hooks machine host, call.Guarded := by
  intro call hmem
  obtain ⟨performed, last, -, hsession, -⟩ := step_cases hooks hfree host
  obtain ⟨-, -, hcalls⟩ := hsession.undisturbed rfl (.refl _)
  obtain ⟨index, hindex⟩ := List.mem_iff_getElem?.mp hmem
  have hcontained := hcalls index call hindex
  constructor
  · intro moment hmoment
    rw [(hcontained.sameWork_of_mem_moments hmoment).busy_eq, applyAll_busy]
  · intro exchange hexchange
    exact (hcontained.exchanges exchange hexchange).1

theorem guarded_stepWhileRunning (hooks : Hooks σ ε) (limit taken : Nat)
    (hfree : machine.busy = false) (host : σ) {log : List Call}
    (hlog : ∀ call ∈ log, call.Guarded) :
    let done := stepWhileRunning hooks.recorded limit taken machine (host, log)
    done.machine.busy = false ∧ ∀ call ∈ done.host.2, call.Guarded := by
  induction limit generalizing machine taken host log with
  | zero =>
    refine ⟨?_, hlog⟩
    rw [stepWhileRunning]
    split
    · exact hfree
    · exact hfree
  | succ limit ih =>
    rw [stepWhileRunning]
    split
    · have hstep := step_free hooks hfree host
      have hlater : ∀ call ∈ log ++ calls hooks machine host, call.Guarded := by
        intro call hmem
        rcases List.mem_append.mp hmem with hmem | hmem
        · exact hlog call hmem
        · exact guarded_step hooks hfree host call hmem
      rw [step_recorded]
      cases (step hooks machine host).result with
      | ok events => exact ih (taken + 1) hstep _ hlater
      | error fault => exact ⟨hstep, hlater⟩
    · exact ⟨hfree, hlog⟩

theorem guarded_run (hooks : Hooks σ ε) (hfree : machine.busy = false) (limit : Int) (host : σ) :
    let done := run hooks.recorded limit machine (host, [])
    done.machine.busy = false ∧ ∀ call ∈ done.host.2, call.Guarded := by
  have hsilent : ∀ call ∈ ([] : List Call), call.Guarded :=
    fun _ hmem => absurd hmem List.not_mem_nil
  have hstart : { machine with status := .running }.busy = false := hfree
  rw [run_of_free hooks.recorded hfree]
  exact guarded_stepWhileRunning hooks limit.toNat 0 hstart host hsilent

/-- Whatever is done with a machine that no step is under way in, it is left so, and it is busy in
all callbacks. -/
theorem guarded_operation (hfree : machine.busy = false) {operation : Operation σ ε}
    {outcome : Outcome (σ × List Call) ε Reply}
    (hends : operation.recorded.Ends machine (host, []) outcome) :
    outcome.machine.busy = false ∧ ∀ call ∈ outcome.host.2, call.Guarded := by
  have hsilent : ∀ call ∈ ([] : List Call), call.Guarded :=
    fun _ hmem => absurd hmem List.not_mem_nil
  cases operation with
  | step hooks =>
    subst hends
    rw [step_recorded]
    exact ⟨step_free hooks hfree host, guarded_step hooks hfree host⟩
  | run hooks limit =>
    cases limit with
    | some limit =>
      subst hends
      exact guarded_run hooks hfree limit host
    | none =>
      obtain ⟨limit, rfl, -⟩ := hends
      exact guarded_run hooks hfree limit host
  | pause =>
    simp only [Operation.recorded, Operation.Ends, pause] at hends
    split at hends
    · next paused hpaused =>
      subst hends
      split at hpaused
      · obtain rfl := Except.ok.inj hpaused
        exact ⟨hfree, hsilent⟩
      · cases hpaused
    · subst hends
      exact ⟨hfree, hsilent⟩
  | stop =>
    subst hends
    rw [stop, reset_of_free hfree]
    exact ⟨rfl, hsilent⟩
  | reset content =>
    subst hends
    rw [reset_of_free hfree]
    exact ⟨rfl, hsilent⟩

theorem guarded_course {operations : List (Operation σ ε)} {reports : List (Report ε)}
    {last : Machine} (hcourse : Course operations machine host reports last)
    (hfree : machine.busy = false) :
    last.busy = false ∧ ∀ report ∈ reports,
      report.machine.busy = false ∧ ∀ call ∈ report.calls, call.Guarded := by
  induction hcourse with
  | nil machine host => exact ⟨hfree, fun _ hmem => absurd hmem List.not_mem_nil⟩
  | cons hends _ ih =>
    obtain ⟨hnext, hcalls⟩ := guarded_operation hfree hends
    obtain ⟨hlast, hreports⟩ := ih hnext
    refine ⟨hlast, fun report hmem => ?_⟩
    rcases List.mem_cons.mp hmem with rfl | hmem
    · exact ⟨hnext, hcalls⟩
    · exact hreports report hmem

/-- Whatever was done with a machine, with or without errors: between operations and between the
steps of a run it is not busy, and in every callback it is. So it refuses to step and run there, and
nowhere else. A step or a run ends in an error exactly if that error leaves a callback of a step
that it gets to; then the effects of that step so far stay, on top of the steps before it, and no
request to start over takes effect. -/
theorem errors_cut_steps_short {machine : Machine} (hfree : machine.busy = false)
    {operations : List (Operation σ ε)} {host : σ} {reports : List (Report ε)} {last : Machine}
    (hcourse : Course operations machine host reports last) :
    (last.busy = false ∧ ∀ report ∈ reports,
      report.machine.busy = false ∧ ∀ call ∈ report.calls, call.Guarded) ∧
    ∀ (operation : Operation σ ε) (host : σ), operation.Drives →
      (∀ hooks before now, operation.Enters last host hooks before now →
        before.busy = false ∧ (∀ call ∈ calls hooks before now, call.Guarded) ∧
          ∀ index fault, Fails hooks before now index fault →
            CutShort hooks before now index fault) ∧
      ∀ outcome fault,
        operation.Ends last host outcome ∧ outcome.result = .error fault ↔
          ∃ hooks before now index, operation.Enters last host hooks before now ∧
            Fails hooks before now index fault ∧
            outcome =
              { machine := (step hooks before now).machine
                host := (step hooks before now).host
                result := .error fault } := by
  obtain ⟨hlast, hreports⟩ := guarded_course hcourse hfree
  refine ⟨⟨hlast, hreports⟩, fun operation host hdrives => ⟨?_, fun outcome fault => ⟨?_, ?_⟩⟩⟩
  · intro hooks before now henters
    have hbefore := henters.free hlast
    exact ⟨hbefore, guarded_step hooks hbefore now, fun index fault h => h.cutShort hbefore⟩
  · rintro ⟨hends, hfault⟩
    obtain ⟨hooks, before, now, henters, hstep, houtcome⟩ :=
      Operation.exists_enters_of_ends hdrives hlast hends hfault
    obtain ⟨index, hfails⟩ := (step_error_iff (henters.free hlast) fault).mp hstep
    exact ⟨hooks, before, now, index, henters, hfails, houtcome⟩
  · rintro ⟨hooks, before, now, index, henters, hfails, rfl⟩
    exact ⟨henters.ends hlast (hfails.cutShort (henters.free hlast)).result, rfl⟩

/-- The scribe when the quitter has ended its step: it has written and not moved, and a request
waits. -/
def abandoned : Machine :=
  { scribe with tape := scribe.tape.write "b", pending := some ['z'] }

/-- The quitter leaves a machine that can be run. The objector ends that run in its first step,
which has found no case then; the request that it adds waits too. -/
theorem errors_cut_steps_short_quitter :
    scribe.busy = false ∧ CutShort quitter scribe () 0 (.host ()) ∧
      (∃ reports, Course [.step quitter] scribe () reports abandoned) ∧
      ∃ outcome, (Operation.run objector none).Ends abandoned () outcome ∧
        outcome.result = .error (.host ()) ∧
        outcome.machine = { abandoned with halted := true } := by
  have hfree : scribe.busy = false := rfl
  have hcut := ((errors_cut_steps_short hfree (.nil scribe ())).2 (.step quitter) () trivial).1
    quitter scribe () (.step quitter)
  have hcourse : Course [.step quitter] scribe () _ abandoned := .cons rfl (.nil _ _)
  have hrun := (errors_cut_steps_short hfree hcourse).2 (.run objector none) () trivial
  have henters : (Operation.run objector none).Enters abandoned () objector
      { abandoned with status := .running } () :=
    .run (fun bound hbound => by cases hbound) (underway_zero_iff.mpr rfl)
  obtain ⟨hends, hresult⟩ := (hrun.2 _ (.host ())).mpr
    ⟨objector, _, (), 0, henters, ⟨.halt, [], rfl, rfl, rfl⟩, rfl⟩
  exact ⟨hfree, hcut.2.2 0 _ ⟨.write "b", [], rfl, rfl, rfl⟩, ⟨_, hcourse⟩, _, hends, hresult, rfl⟩

end Machine

end TapeMachine
