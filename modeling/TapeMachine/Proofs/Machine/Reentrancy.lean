import TapeMachine.Proofs.Machine.Recording

/-!
# TapeMachine.Proofs.Machine.Reentrancy

Callbacks cannot disturb the step that calls them.

* `Hooks.Quiet` — no error leaves a callback.
* `Machine.SameWork` — two machines differ at most in their status and in what they noted.
* `Machine.Undisturbed` — what a step with callbacks has in common with the one without.
* `Machine.Interruptible` — a run ends with the step in which a callback asks it to.

While a step is under way the machine is busy, and a busy machine changes its status and its note
at most (`Exchange.Contained`). That is kept along a `Dialogue` and, since effects read neither
field, along a `Session`. What becomes of the two fields is followed apart: the note is the last
request to start over, and a status that is not running stays so.
-/

namespace TapeMachine

variable {σ ε : Type}

/-! ### Callbacks that let no error out -/

/-- No error leaves the script, whatever the machine answers. -/
def Script.Quiet : Script σ ε → Prop
  | .done _ => True
  | .raise _ _ => False
  | .ask _ next => ∀ refusal machine, (next refusal machine).Quiet

/-- No error leaves a callback. -/
def Hooks.Quiet (hooks : Hooks σ ε) : Prop :=
  ∀ machine host event, (hooks.respond machine host event).Quiet

theorem Script.Quiet.play_result {script : Script σ ε} (h : script.Quiet) (machine : Machine) :
    (script.play machine).result = .ok () := by
  induction script generalizing machine with
  | done host => rfl
  | raise host fault => exact h.elim
  | ask request next ih =>
    rw [Script.play]
    cases machine.handle request with
    | ok after => exact ih none after (h none after) after
    | error error => exact ih (some error) machine (h (some error) machine) machine

theorem Hooks.Quiet.exists_perform_result {hooks : Hooks σ ε} (h : hooks.Quiet)
    (effects : List Effect) (machine : Machine) (host : σ) :
    ∃ events, (Machine.perform hooks effects machine host).result = .ok events := by
  induction effects generalizing machine host with
  | nil => exact ⟨[], rfl⟩
  | cons effect effects ih =>
    have hplay := (h (effect.apply machine).1 host (effect.apply machine).2).play_result
      (effect.apply machine).1
    simp only [Machine.perform, hplay]
    obtain ⟨events, hevents⟩ := ih _ _
    exact ⟨_ :: events, by rw [hevents]; rfl⟩

theorem Hooks.Quiet.exists_step_result {hooks : Hooks σ ε} (h : hooks.Quiet) {machine : Machine}
    (hfree : machine.busy = false) (host : σ) :
    ∃ events, (Machine.step hooks machine host).result = .ok events := by
  obtain ⟨events, hevents⟩ :=
    h.exists_perform_result machine.plan { machine with busy := true } host
  exact ⟨events, by simp [Machine.step, hfree, hevents]⟩

namespace Machine

/-! ### Busy machines -/

/-- Two machines differ at most in their status and in what they noted. -/
def SameWork (left right : Machine) : Prop :=
  ∃ status pending, left = { right with status, pending }

namespace SameWork

variable {left middle right : Machine}

theorem refl (machine : Machine) : machine.SameWork machine :=
  ⟨machine.status, machine.pending, rfl⟩

theorem trans (hleft : left.SameWork middle) (hright : middle.SameWork right) :
    left.SameWork right := by
  obtain ⟨status, pending, rfl⟩ := hleft
  obtain ⟨_, _, rfl⟩ := hright
  exact ⟨status, pending, rfl⟩

theorem busy_eq (h : left.SameWork right) : left.busy = right.busy := by
  obtain ⟨_, _, rfl⟩ := h
  rfl

theorem input_eq (h : left.SameWork right) : left.input = right.input := by
  obtain ⟨_, _, rfl⟩ := h
  rfl

/-- An effect does the same to both, and tells the same. -/
theorem apply (h : left.SameWork right) (effect : Effect) :
    (effect.apply left).1.SameWork (effect.apply right).1 ∧
      (effect.apply left).2 = (effect.apply right).2 := by
  obtain ⟨status, pending, rfl⟩ := h
  cases effect with
  | write symbol => exact ⟨⟨status, pending, rfl⟩, rfl⟩
  | move direction => exact ⟨⟨status, pending, rfl⟩, rfl⟩
  | switch state => exact ⟨⟨status, pending, rfl⟩, rfl⟩
  | halt => exact ⟨⟨.stopped, pending, rfl⟩, rfl⟩

end SameWork

/-- The content a request to start over names, for a machine with the given input. -/
def Request.restart? (input : Text) : Request → Option Text
  | .stop => some input
  | .reset content => some content
  | .step | .run _ | .pause => none

/-- The requests that end a run. -/
def Request.interrupts : Request → Bool
  | .pause | .stop | .reset _ => true
  | .step | .run _ => false

end Machine

/-- What can be asked of a busy machine and what comes of it. -/
structure Exchange.Contained (exchange : Exchange) : Prop where
  /-- A step is refused and changes nothing. -/
  step : exchange.request = .step →
    exchange.refusal = some .stepWhileBusy ∧ exchange.after = exchange.before
  /-- A run is refused and changes nothing. -/
  run : ∀ limit, exchange.request = .run limit →
    exchange.refusal = some .runWhileBusy ∧ exchange.after = exchange.before
  /-- A pause is granted to a running machine, and refused otherwise. -/
  pause : exchange.request = .pause →
    if exchange.before.status = .running then
      exchange.refusal = none ∧ exchange.after = { exchange.before with status := .paused }
    else
      exchange.refusal = some (.notRunning exchange.before.status) ∧
        exchange.after = exchange.before
  /-- A request to start over stops the machine and is noted, and changes nothing else. -/
  restart : ∀ content, exchange.request.restart? exchange.before.input = some content →
    exchange.refusal = none ∧
      exchange.after = { exchange.before with status := .stopped, pending := some content }

namespace Exchange

variable {exchange : Exchange}

theorem Answered.granted (h : exchange.Answered) {after : Machine}
    (hhandle : exchange.before.handle exchange.request = .ok after) :
    exchange.refusal = none ∧ exchange.after = after := by
  unfold Answered at h
  cases hrefusal : exchange.refusal with
  | none =>
    rw [hrefusal] at h
    exact ⟨rfl, Except.ok.inj (h.symm.trans hhandle)⟩
  | some error =>
    rw [hrefusal] at h
    cases h.1.symm.trans hhandle

theorem Answered.refused (h : exchange.Answered) {error : Machine.Error}
    (hhandle : exchange.before.handle exchange.request = .error error) :
    exchange.refusal = some error ∧ exchange.after = exchange.before := by
  unfold Answered at h
  cases hrefusal : exchange.refusal with
  | none =>
    rw [hrefusal] at h
    cases h.symm.trans hhandle
  | some given =>
    rw [hrefusal] at h
    obtain rfl := Except.error.inj (h.1.symm.trans hhandle)
    exact ⟨rfl, h.2⟩

theorem Answered.contained (h : exchange.Answered) (hbusy : exchange.before.busy = true) :
    exchange.Contained := by
  refine ⟨fun hrequest => ?_, fun limit hrequest => ?_, fun hrequest => ?_,
    fun content hrequest => ?_⟩
  · exact h.refused (by rw [hrequest]; exact Machine.handle_step_of_busy hbusy)
  · exact h.refused (by rw [hrequest]; exact Machine.handle_run_of_busy hbusy limit)
  · split
    · next hrunning => exact h.granted (by rw [hrequest]; exact if_pos hrunning)
    · next hrunning => exact h.refused (by rw [hrequest]; exact if_neg hrunning)
  · apply h.granted
    -- stopping is starting over on the same input
    cases hcase : exchange.request with
    | stop =>
      rw [hcase] at hrequest
      obtain rfl := Option.some.inj hrequest
      rw [Machine.handle, Machine.stop, Machine.reset, if_pos hbusy]
    | reset other =>
      rw [hcase] at hrequest
      obtain rfl := Option.some.inj hrequest
      rw [Machine.handle, Machine.reset, if_pos hbusy]
    | step => rw [hcase] at hrequest; cases hrequest
    | run limit => rw [hcase] at hrequest; cases hrequest
    | pause => rw [hcase] at hrequest; cases hrequest

namespace Contained

/-- A busy machine stays as it is, or is paused, or is stopped with a note. -/
theorem after_cases (h : exchange.Contained) :
    (exchange.after = exchange.before ∧
        exchange.request.restart? exchange.before.input = none ∧
        (exchange.request.interrupts = true → exchange.before.status ≠ .running)) ∨
      (exchange.after = { exchange.before with status := .paused } ∧
        exchange.request.restart? exchange.before.input = none) ∨
      ∃ content, exchange.request.restart? exchange.before.input = some content ∧
        exchange.after =
          { exchange.before with status := .stopped, pending := some content } := by
  cases hrequest : exchange.request with
  | step =>
    refine Or.inl ⟨(h.step hrequest).2, rfl, fun hinterrupts => ?_⟩
    cases hinterrupts
  | run limit =>
    refine Or.inl ⟨(h.run limit hrequest).2, rfl, fun hinterrupts => ?_⟩
    cases hinterrupts
  | pause =>
    have hpause := h.pause hrequest
    by_cases hrunning : exchange.before.status = .running
    · rw [if_pos hrunning] at hpause
      exact Or.inr (Or.inl ⟨hpause.2, rfl⟩)
    · rw [if_neg hrunning] at hpause
      exact Or.inl ⟨hpause.2, rfl, fun _ => hrunning⟩
  | stop =>
    have hrestart := h.restart exchange.before.input (by rw [hrequest]; rfl)
    exact Or.inr (Or.inr ⟨_, rfl, hrestart.2⟩)
  | reset content =>
    have hrestart := h.restart content (by rw [hrequest]; rfl)
    exact Or.inr (Or.inr ⟨content, rfl, hrestart.2⟩)

theorem sameWork (h : exchange.Contained) : exchange.after.SameWork exchange.before := by
  rcases h.after_cases with ⟨hafter, -, -⟩ | ⟨hafter, -⟩ | ⟨content, -, hafter⟩
  · rw [hafter]
    exact .refl _
  · exact ⟨_, _, hafter⟩
  · exact ⟨_, _, hafter⟩

theorem pending (h : exchange.Contained) :
    exchange.after.pending =
      (exchange.request.restart? exchange.before.input).or exchange.before.pending := by
  rcases h.after_cases with ⟨hafter, hrestart, -⟩ | ⟨hafter, hrestart⟩ | ⟨content, hrestart, hafter⟩
  · rw [hafter, hrestart, Option.none_or]
  · rw [hafter, hrestart, Option.none_or]
  · rw [hafter, hrestart, Option.some_or]

theorem status_ne_running (h : exchange.Contained)
    (hstatus : exchange.before.status ≠ .running ∨ exchange.request.interrupts = true) :
    exchange.after.status ≠ .running := by
  rcases h.after_cases with ⟨hafter, -, hbefore⟩ | ⟨hafter, -⟩ | ⟨content, -, hafter⟩
  · rw [hafter]
    exact hstatus.elim id hbefore
  · rw [hafter]
    exact Status.noConfusion
  · rw [hafter]
    exact Status.noConfusion

end Contained

end Exchange

/-! ### What a callback can do -/

namespace Dialogue

variable {machine last : Machine} {exchanges : List Exchange}

/-- Every request of a callback is contained, and so is what they come to together. -/
theorem contained (h : Dialogue machine exchanges last) (hbusy : machine.busy = true) :
    last.SameWork machine ∧ ∀ exchange ∈ exchanges, exchange.Contained ∧
      exchange.before.SameWork machine ∧ exchange.after.SameWork machine := by
  induction h with
  | silence machine => exact ⟨.refl machine, fun _ hmem => absurd hmem List.not_mem_nil⟩
  | ask exchange hanswered _ ih =>
    have hcontained := hanswered.contained hbusy
    have hsame := hcontained.sameWork
    obtain ⟨hlast, hrest⟩ := ih (hsame.busy_eq.trans hbusy)
    refine ⟨hlast.trans hsame, fun other hmem => ?_⟩
    rcases List.mem_cons.mp hmem with rfl | hmem
    · exact ⟨hcontained, .refl _, hsame⟩
    · obtain ⟨hother, hbefore, hafter⟩ := hrest other hmem
      exact ⟨hother, hbefore.trans hsame, hafter.trans hsame⟩

/-- The last request to start over is the one that is noted. -/
theorem pending (h : Dialogue machine exchanges last) (hbusy : machine.busy = true) :
    last.pending = (exchanges.filterMap fun exchange =>
      exchange.request.restart? machine.input).getLast?.or machine.pending := by
  induction h with
  | silence machine => rfl
  | ask exchange hanswered _ ih =>
    have hcontained := hanswered.contained hbusy
    have hsame := hcontained.sameWork
    rw [ih (hsame.busy_eq.trans hbusy), hsame.input_eq, hcontained.pending]
    cases hrestart : exchange.request.restart? exchange.before.input with
    | none => simp only [List.filterMap_cons, hrestart, Option.none_or]
    | some content =>
      simp only [List.filterMap_cons, hrestart, List.getLast?_cons, Option.some_or]
      cases (List.filterMap _ _).getLast? <;> rfl

/-- A status that is not running stays so, and after a request to end a run it is not running. -/
theorem status_ne_running (h : Dialogue machine exchanges last) (hbusy : machine.busy = true)
    (hstatus : machine.status ≠ .running ∨
      ∃ exchange ∈ exchanges, exchange.request.interrupts = true) :
    last.status ≠ .running := by
  induction h with
  | silence machine =>
    rcases hstatus with hstatus | ⟨exchange, hmem, -⟩
    · exact hstatus
    · exact absurd hmem List.not_mem_nil
  | ask exchange hanswered _ ih =>
    have hcontained := hanswered.contained hbusy
    refine ih (hcontained.sameWork.busy_eq.trans hbusy) ?_
    rcases hstatus with hstatus | ⟨other, hmem, hinterrupts⟩
    · exact Or.inl (hcontained.status_ne_running (Or.inl hstatus))
    · rcases List.mem_cons.mp hmem with rfl | hmem
      · exact Or.inl (hcontained.status_ne_running (Or.inr hinterrupts))
      · exact Or.inr ⟨other, hmem, hinterrupts⟩

end Dialogue

/-! ### What a step can become -/

namespace Effect

variable (effect : Effect) (machine : Machine)

@[simp] theorem apply_busy : (effect.apply machine).1.busy = machine.busy := by
  cases effect <;> rfl

@[simp] theorem apply_input : (effect.apply machine).1.input = machine.input := by
  cases effect <;> rfl

@[simp] theorem apply_pending : (effect.apply machine).1.pending = machine.pending := by
  cases effect <;> rfl

theorem apply_status_ne_running (h : machine.status ≠ .running) :
    (effect.apply machine).1.status ≠ .running := by
  cases effect with
  | halt => exact Status.noConfusion
  | _ => exact h

end Effect

namespace Call

/-- All that a callback asks is contained, and all the while the machine does the work of the given
one. -/
structure Contained (call : Call) (plain : Machine) : Prop where
  /-- The machine as the callback finds it does that work. -/
  machine : call.machine.SameWork plain
  /-- The requests are contained, and the machine does that work before and after them. -/
  exchanges : ∀ exchange ∈ call.exchanges, exchange.Contained ∧
    exchange.before.SameWork plain ∧ exchange.after.SameWork plain

/-- The contents that requests to start over name, in order. -/
def restarts (input : Text) (calls : List Call) : List Text :=
  calls.flatMap fun call => call.exchanges.filterMap fun exchange =>
    exchange.request.restart? input

/-- Some callback asked the run to end. -/
def Interrupt (calls : List Call) : Prop :=
  ∃ call ∈ calls, ∃ exchange ∈ call.exchanges, exchange.request.interrupts = true

end Call

namespace Session

variable {machine plain last : Machine} {effects : List Effect} {calls : List Call}

/-- Alongside the same effects without callbacks, nothing but the status and the note differs. -/
theorem undisturbed (h : Session machine effects calls last) (hbusy : machine.busy = true)
    (hsame : machine.SameWork plain) :
    last.SameWork (plain.applyAll effects).1 ∧
      calls.map Call.event = (plain.applyAll effects).2 ∧
      ∀ (index : Nat) (call : Call), calls[index]? = some call →
        call.Contained (plain.applyAll (effects.take (index + 1))).1 := by
  induction h generalizing plain with
  | rest machine => exact ⟨hsame, rfl, fun _ _ hcall => by cases hcall⟩
  | @call machine next last effect effects exchanges calls hdialogue _ ih =>
    -- the effect does the same to both machines, and then the callback to one of them
    obtain ⟨hfirst, hevent⟩ := hsame.apply effect
    have hfirstBusy := (effect.apply_busy machine).trans hbusy
    obtain ⟨hnext, hexchanges⟩ := hdialogue.contained hfirstBusy
    obtain ⟨hlast, hevents, hcalls⟩ :=
      ih (hnext.busy_eq.trans hfirstBusy) (hnext.trans hfirst)
    refine ⟨hlast, ?_, fun index call hcall => ?_⟩
    · rw [List.map_cons, hevents, hevent]
      rfl
    · cases index with
      | zero =>
        obtain rfl := Option.some.inj hcall
        refine ⟨hfirst, fun exchange hmem => ?_⟩
        obtain ⟨hcontained, hbefore, hafter⟩ := hexchanges exchange hmem
        exact ⟨hcontained, hbefore.trans hfirst, hafter.trans hfirst⟩
      | succ index => exact hcalls index call hcall

/-- The last request to start over, in whichever callback, is the one that is noted. -/
theorem pending (h : Session machine effects calls last) (hbusy : machine.busy = true) :
    last.pending = (Call.restarts machine.input calls).getLast?.or machine.pending := by
  induction h with
  | rest machine => rfl
  | @call machine next last effect effects exchanges calls hdialogue _ ih =>
    have hfirstBusy := (effect.apply_busy machine).trans hbusy
    have hnext := (hdialogue.contained hfirstBusy).1
    rw [ih (hnext.busy_eq.trans hfirstBusy), hnext.input_eq, hdialogue.pending hfirstBusy,
      effect.apply_input, effect.apply_pending, Call.restarts, Call.restarts, List.flatMap_cons,
      List.getLast?_append, Option.or_assoc]

theorem status_ne_running (h : Session machine effects calls last) (hbusy : machine.busy = true)
    (hstatus : machine.status ≠ .running ∨ Call.Interrupt calls) : last.status ≠ .running := by
  induction h with
  | rest machine =>
    rcases hstatus with hstatus | ⟨call, hmem, -⟩
    · exact hstatus
    · exact absurd hmem List.not_mem_nil
  | @call machine next last effect effects exchanges calls hdialogue _ ih =>
    have hfirstBusy := (effect.apply_busy machine).trans hbusy
    refine ih ((hdialogue.contained hfirstBusy).1.busy_eq.trans hfirstBusy) ?_
    rcases hstatus with hstatus | ⟨call, hmem, hinterrupt⟩
    · exact Or.inl (hdialogue.status_ne_running hfirstBusy
        (Or.inl (effect.apply_status_ne_running machine hstatus)))
    · rcases List.mem_cons.mp hmem with rfl | hmem
      · exact Or.inl (hdialogue.status_ne_running hfirstBusy (Or.inr hinterrupt))
      · exact Or.inr ⟨call, hmem, hinterrupt⟩

end Session

namespace Machine

variable {hooks : Hooks σ ε} {machine : Machine} {host : σ}

/-! ### One step -/

/-- The machine after some effects of a step without callbacks. -/
def inFlight (machine : Machine) (count : Nat) : Machine :=
  (applyAll { machine with busy := true } (machine.plan.take count)).1

/-- What a step with callbacks has in common with the one without. -/
structure Undisturbed (hooks : Hooks σ ε) (machine : Machine) (host : σ) : Prop where
  /-- Its calls are what a host writes down that does the same and keeps a log. -/
  recorded : ∀ log, step hooks.recorded machine (host, log) =
    { machine := (step hooks machine host).machine
      host := ((step hooks machine host).host, log ++ calls hooks machine host)
      result := (step hooks machine host).result }
  /-- Its result is the events of the step without callbacks. -/
  result : (step hooks machine host).result = .ok machine.advance.2
  /-- Each of them is handed to its callback once, in order. -/
  events : (calls hooks machine host).map Call.event = machine.advance.2
  /-- What callbacks ask is contained, and the machine they see does the work of the step without
  callbacks. -/
  contained : ∀ (index : Nat) (call : Call), (calls hooks machine host)[index]? = some call →
    call.Contained (machine.inFlight (index + 1))
  /-- If no callback asks to start over, then the step comes to what it does without callbacks. -/
  unasked : Call.restarts machine.input (calls hooks machine host) = [] →
    (step hooks machine host).machine.SameWork machine.advance.1
  /-- If one does, then the machine starts over with the content of the last such request. -/
  restarted : ∀ content,
    (Call.restarts machine.input (calls hooks machine host)).getLast? = some content →
      (step hooks machine host).machine = start machine.automaton machine.margin content

theorem applyAll_pending (effects : List Effect) (machine : Machine) :
    (machine.applyAll effects).1.pending = machine.pending := by
  induction effects generalizing machine with
  | nil => rfl
  | cons effect effects ih => exact (ih _).trans (effect.apply_pending machine)

theorem applyAll_input (effects : List Effect) (machine : Machine) :
    (machine.applyAll effects).1.input = machine.input := by
  induction effects generalizing machine with
  | nil => rfl
  | cons effect effects ih => exact (ih _).trans (effect.apply_input machine)

theorem applyAll_fixed (effects : List Effect) (machine : Machine) :
    (machine.applyAll effects).1.automaton = machine.automaton ∧
      (machine.applyAll effects).1.margin = machine.margin := by
  induction effects generalizing machine with
  | nil => exact ⟨rfl, rfl⟩
  | cons effect effects ih =>
    obtain ⟨hautomaton, hmargin⟩ := ih (effect.apply machine).1
    refine ⟨hautomaton.trans ?_, hmargin.trans ?_⟩
    · cases effect <;> rfl
    · cases effect <;> rfl

/-- A step that no error ends has all its effects and settles. -/
theorem exists_session_of_ok {events : List Event}
    (hok : (step hooks machine host).result = .ok events) (hfree : machine.busy = false) :
    ∃ last, Session { machine with busy := true } machine.plan (calls hooks machine host) last ∧
      (step hooks machine host).machine = last.settle ∧
      events = (calls hooks machine host).map Call.event := by
  obtain ⟨performed, last, -, hsession, hdone | hfailed⟩ := step_cases hooks hfree host
  · obtain ⟨rfl, hmachine, hresult⟩ := hdone
    exact ⟨last, hsession, hmachine, Except.ok.inj (hok.symm.trans hresult)⟩
  · obtain ⟨-, fault, hfault⟩ := hfailed
    cases hfault.symm.trans hok

theorem SameWork.settle {left right : Machine} (h : left.SameWork right)
    (hleft : left.pending = none) (hright : right.pending = none) :
    left.settle.SameWork right.settle := by
  rw [settle_of_pending_none hleft, settle_of_pending_none hright]
  obtain ⟨status, pending, rfl⟩ := h
  exact ⟨status, pending, rfl⟩

/-- A noted request is met by starting over. -/
theorem settle_of_pending {content : Text} (h : machine.pending = some content) :
    machine.settle = start machine.automaton machine.margin content := by
  simp [Machine.settle, h, reset, restart, start]

theorem undisturbed_of_ok {events : List Event}
    (hok : (step hooks machine host).result = .ok events) (hidle : machine.Idle) :
    Undisturbed hooks machine host := by
  obtain ⟨last, hsession, hmachine, htold⟩ := exists_session_of_ok hok hidle.free
  obtain ⟨hlast, hevents, hcalls⟩ := hsession.undisturbed rfl (.refl _)
  have hpending := hsession.pending rfl
  rw [hidle.settled, Option.or_none] at hpending
  refine ⟨step_recorded hooks machine host, by rw [hok, htold, hevents]; rfl, hevents, hcalls,
    fun hrestarts => ?_, fun content hcontent => ?_⟩
  · rw [hmachine]
    refine hlast.settle ?_ ?_
    -- neither has a note, so that settling only frees them
    · rw [hpending, hrestarts]
      rfl
    · exact (applyAll_pending _ _).trans hidle.settled
  · rw [hmachine, settle_of_pending (hpending.trans hcontent)]
    obtain ⟨hautomaton, hmargin⟩ := applyAll_fixed machine.plan { machine with busy := true }
    obtain ⟨status, pending, rfl⟩ := hlast
    rw [hautomaton, hmargin]

theorem undisturbed_of_quiet (hquiet : hooks.Quiet) (hidle : machine.Idle) (host : σ) :
    Undisturbed hooks machine host := by
  obtain ⟨events, hok⟩ := hquiet.exists_step_result hidle.free host
  exact undisturbed_of_ok hok hidle

/-! ### Runs -/

/-- The machine and the host after some steps, one after the other. -/
def stepTimes (hooks : Hooks σ ε) : Nat → Machine → σ → Machine × σ
  | 0, machine, host => (machine, host)
  | count + 1, machine, host =>
    stepTimes hooks count (step hooks machine host).machine (step hooks machine host).host

theorem stepTimes_succ (hooks : Hooks σ ε) (count : Nat) (machine : Machine) (host : σ) :
    stepTimes hooks (count + 1) machine host =
      let done := stepTimes hooks count machine host
      ((step hooks done.1 done.2).machine, (step hooks done.1 done.2).host) := by
  induction count generalizing machine host with
  | zero => rfl
  | succ count ih => exact ih _ _

theorem Idle.step_of_ok (h : machine.Idle) {events : List Event}
    (hok : (step hooks machine host).result = .ok events) :
    (step hooks machine host).machine.Idle := by
  obtain ⟨last, -, hmachine, -⟩ := exists_session_of_ok hok h.free
  rw [hmachine]
  exact ⟨settle_busy last, settle_pending last⟩

theorem Idle.step_of_quiet (h : machine.Idle) (hquiet : hooks.Quiet) (host : σ) :
    (step hooks machine host).machine.Idle := by
  obtain ⟨events, hok⟩ := hquiet.exists_step_result h.free host
  exact h.step_of_ok hok

theorem Idle.stepTimes_of_quiet (h : machine.Idle) (hquiet : hooks.Quiet) (count : Nat)
    (host : σ) : (stepTimes hooks count machine host).1.Idle := by
  induction count generalizing machine host with
  | zero => exact h
  | succ count ih => exact ih (h.step_of_quiet hquiet host) _

/-- A run whose callbacks let no error out is made of steps: as long as the machine is running, and
at most as many as the limit says. -/
structure Paced (hooks : Hooks σ ε) (limit : Nat) (machine : Machine) (host : σ) (taken : Nat)
    (outcome : Outcome σ ε Nat) : Prop where
  /-- There are no more steps than the limit says. -/
  bound : taken ≤ limit
  /-- The machine is running before each step. -/
  running : ∀ index < taken, (stepTimes hooks index machine host).1.status = .running
  /-- Where the run ends before the limit, the machine is not running. -/
  ended : taken < limit → (stepTimes hooks taken machine host).1.status ≠ .running
  /-- The machine is the one after the steps; if it is still running, it is paused. -/
  lastMachine : outcome.machine =
    let last := (stepTimes hooks taken machine host).1
    if last.status = .running then { last with status := .paused } else last
  /-- The host is the one after the steps. -/
  lastHost : outcome.host = (stepTimes hooks taken machine host).2

theorem stepWhileRunning_of_quiet (hquiet : hooks.Quiet) (limit earlier : Nat)
    (hidle : machine.Idle) (host : σ) :
    ∃ taken, (stepWhileRunning hooks limit earlier machine host).result = .ok (earlier + taken) ∧
      Paced hooks limit machine host taken (stepWhileRunning hooks limit earlier machine host) := by
  induction limit generalizing earlier machine host with
  | zero =>
    refine ⟨0, rfl, Nat.le_refl 0, fun index hindex => ?_, fun hlimit => ?_, rfl, rfl⟩
    · exact absurd hindex (Nat.not_lt_zero index)
    · exact absurd hlimit (Nat.lt_irrefl 0)
  | succ limit ih =>
    by_cases hrunning : machine.status = .running
    · obtain ⟨events, hevents⟩ := hquiet.exists_step_result hidle.free host
      obtain ⟨taken, hresult, hpaced⟩ := ih (earlier + 1) (hidle.step_of_quiet hquiet host)
        (step hooks machine host).host
      simp only [stepWhileRunning, if_pos hrunning, hevents]
      refine ⟨taken + 1, ?_, Nat.succ_le_succ hpaced.bound, fun index hindex => ?_,
        fun hlimit => hpaced.ended (Nat.lt_of_succ_lt_succ hlimit), hpaced.lastMachine,
        hpaced.lastHost⟩
      · rw [hresult, Nat.add_assoc, Nat.add_comm 1 taken]
      · cases index with
        | zero => exact hrunning
        | succ index => exact hpaced.running index (Nat.lt_of_succ_lt_succ hindex)
    · simp only [stepWhileRunning, if_neg hrunning]
      refine ⟨0, rfl, Nat.zero_le _, fun index hindex => ?_, fun _ => hrunning, ?_, rfl⟩
      · exact absurd hindex (Nat.not_lt_zero index)
      · exact (if_neg hrunning).symm

/-- After a step in which a callback asks for it, the machine is not running. -/
theorem step_status_ne_running (hquiet : hooks.Quiet) (hidle : machine.Idle) (host : σ)
    (hinterrupt : Call.Interrupt (calls hooks machine host)) :
    (step hooks machine host).machine.status ≠ .running := by
  obtain ⟨events, hok⟩ := hquiet.exists_step_result hidle.free host
  obtain ⟨last, hsession, hmachine, -⟩ := exists_session_of_ok hok hidle.free
  have hstatus := hsession.status_ne_running rfl (Or.inr hinterrupt)
  rw [hmachine]
  -- settling keeps the status, or starts over, and then the machine is stopped
  cases hpending : last.pending with
  | none =>
    rw [settle_of_pending_none hpending]
    exact hstatus
  | some content =>
    rw [settle_of_pending hpending]
    exact Status.noConfusion

/-- The steps of a run are undisturbed, and none follows one in which a callback asks the run to
end. -/
def Interruptible (hooks : Hooks σ ε) (machine : Machine) (host : σ) : Prop :=
  ∀ limit : Int, ∃ taken, (run hooks limit machine host).result = .ok taken ∧
    Paced hooks limit.toNat { machine with status := .running } host taken
      (run hooks limit machine host) ∧
    ∀ index < taken,
      let before := stepTimes hooks index { machine with status := .running } host
      Undisturbed hooks before.1 before.2 ∧
        (Call.Interrupt (calls hooks before.1 before.2) →
          taken = index + 1 ∧
            (run hooks limit machine host).machine = (step hooks before.1 before.2).machine)

/-- Callbacks that let no error out cannot disturb a step, and a run ends with the step in which one
of them asks it to. -/
theorem callbacks_cannot_disturb (hquiet : hooks.Quiet) (hidle : machine.Idle) (host : σ) :
    Undisturbed hooks machine host ∧ Interruptible hooks machine host := by
  refine ⟨undisturbed_of_quiet hquiet hidle host, fun limit => ?_⟩
  have hrunning := hidle.withStatus .running
  rw [run, if_neg (by rw [hidle.free]; exact Bool.false_ne_true)]
  obtain ⟨taken, hresult, hpaced⟩ := stepWhileRunning_of_quiet hquiet limit.toNat 0 hrunning host
  rw [Nat.zero_add] at hresult
  refine ⟨taken, hresult, hpaced, fun index hindex => ?_⟩
  have hbefore := hrunning.stepTimes_of_quiet hquiet index host
  refine ⟨undisturbed_of_quiet hquiet hbefore _, fun hinterrupt => ?_⟩
  have hstopped := step_status_ne_running hquiet hbefore _ hinterrupt
  have hnext := stepTimes_succ hooks index { machine with status := .running } host
  have htaken : taken = index + 1 := by
    -- a step after this one would have found the machine running
    rcases Nat.lt_or_ge (index + 1) taken with hlt | hge
    · have hcontra := hpaced.running (index + 1) hlt
      rw [hnext] at hcontra
      exact absurd hcontra hstopped
    · omega
  refine ⟨htaken, ?_⟩
  rw [hpaced.lastMachine, htaken, hnext]
  exact if_neg hstopped

/-- Tries everything in each of its callbacks. -/
def meddler : Hooks Unit Empty :=
  let meddle : Script Unit Empty :=
    .ask .step fun _ _ => .ask (.run 2) fun _ _ => .ask .pause fun _ _ => .ask .stop fun _ _ =>
      .ask (.reset ['z']) fun _ _ => .ask .step fun _ _ => .done ()
  { onReplaced := fun _ _ _ _ _ => meddle
    onMoved := fun _ _ _ _ => meddle
    onSwitched := fun _ _ _ => meddle
    onFinished := fun _ _ _ => meddle }

/-- Writes a letter and goes on to a state that does not exist. -/
def scribe : Machine :=
  start
    { initial := "write"
      states := [("write", [("a", { replacement := "b", direction := .left, target := "gone" })])] }
    Margin.default ['a']

theorem callbacks_cannot_disturb_meddler :
    meddler.Quiet ∧ scribe.Idle ∧
      (Call.restarts scribe.input (calls meddler scribe ())).getLast? = some ['z'] ∧
      Undisturbed meddler scribe () ∧ Interruptible meddler scribe () := by
  have hquiet : meddler.Quiet := by
    intro machine host event
    cases event <;> exact fun _ _ _ _ _ _ _ _ _ _ _ _ => trivial
  exact ⟨hquiet, ⟨rfl, rfl⟩, by decide, callbacks_cannot_disturb hquiet ⟨rfl, rfl⟩ ()⟩

end Machine

end TapeMachine
