import TapeMachine.Proofs.Machine.Failure
import TapeMachine.Proofs.Tape.Actions

/-!
# TapeMachine.Proofs.Machine.EventLog

The events of a machine are a complete log of what it did.

A host that keeps the events and nothing else can replay them on a new tape: it writes what a
`replaced` event says was written and moves where a `moved` event says the head went. Along the way
its tape is the one that each event carries, and in the end it knows the tape, the state and the
number of steps of the machine.

* `Tape.replay` — what events come to on a tape.
* `Tape.Retells` — the replay agrees with what each event carries.
* `Automaton.Prescribes` — three events in a row are those of the case that the automaton has at
  this point of the replay.
* `Machine.Logs` — all that events tell of a machine.

Callbacks may ask for what they like, except to start over. Then a step is the one without callbacks
up to status and note (`undisturbed_of_ok`), and a log says nothing about these. So `Logs` is
followed through `advance`, which adds three events or one (`Logs.advance`).
-/

namespace TapeMachine

variable {σ ε : Type}

/-! ### Replaying events -/

/-- The kinds of events. -/
inductive Event.Kind where
  | replaced
  | moved
  | switched
  | finished
deriving Repr, DecidableEq

namespace Event

/-- The kind of an event. -/
def kind : Event → Kind
  | .replaced _ _ _ => .replaced
  | .moved _ _ => .moved
  | .switched _ => .switched
  | .finished _ => .finished

/-- What the event tells to do to a tape. -/
def action? : Event → Option Tape.Action
  | .replaced _ _ new => some (.write new)
  | .moved _ direction => some (.move direction)
  | .switched _ | .finished _ => none

/-- The state that the event tells to go to. -/
def state? : Event → Option String
  | .switched state => some state
  | .replaced _ _ _ | .moved _ _ | .finished _ => none

/-- The event carries what becomes of the given tape, and the symbol that is overwritten there. -/
def Fits (tape : Tape) : Event → Prop
  | .replaced after old new => old = tape.head ∧ after = tape.write new
  | .moved after direction => after = tape.move direction
  | .switched _ => True
  | .finished after => after = tape

end Event

/-- The events of a step that follows a case, on the tape it starts from. -/
def Case.events (tape : Tape) (case : Case) : List Event :=
  [.replaced (tape.write case.replacement) tape.head case.replacement,
    .moved ((tape.write case.replacement).move case.direction) case.direction,
    .switched case.target]

namespace Tape

/-- The tape on which everything was done that some events tell of. -/
def replay (tape : Tape) (events : List Event) : Tape :=
  tape.after (events.filterMap Event.action?)

/-- Each event fits the tape on which those before it were replayed. -/
def Retells (tape : Tape) (events : List Event) : Prop :=
  ∀ (index : Nat) (event : Event), events[index]? = some event →
    event.Fits (tape.replay (events.take index))

theorem replay_append (tape : Tape) (earlier later : List Event) :
    tape.replay (earlier ++ later) = (tape.replay earlier).replay later := by
  rw [replay, replay, replay, after, after, after, List.filterMap_append, List.foldl_append]

theorem retells_nil (tape : Tape) : tape.Retells [] := by
  intro index event hevent
  cases hevent

theorem retells_cons {tape : Tape} {event : Event} {rest : List Event} (hfirst : event.Fits tape)
    (hrest : (tape.replay [event]).Retells rest) : tape.Retells (event :: rest) := by
  intro index other hother
  cases index with
  | zero =>
    obtain rfl := Option.some.inj hother
    exact hfirst
  | succ index =>
    have hfits := hrest index other hother
    rwa [← replay_append] at hfits

theorem Retells.append {tape : Tape} {earlier later : List Event} (h : tape.Retells earlier)
    (hlater : (tape.replay earlier).Retells later) : tape.Retells (earlier ++ later) := by
  intro index event hevent
  rcases Nat.lt_or_ge index earlier.length with hlt | hge
  · rw [List.getElem?_append_left hlt] at hevent
    rw [List.take_append_of_le_length (Nat.le_of_lt hlt)]
    exact h index event hevent
  · rw [List.getElem?_append_right hge] at hevent
    rw [List.take_append, List.take_of_length_le hge, replay_append]
    exact hlater _ event hevent

theorem retells_case_events (tape : Tape) (case : Case) : tape.Retells (case.events tape) :=
  retells_cons ⟨rfl, rfl⟩ (retells_cons rfl (retells_cons trivial (retells_nil _)))

end Tape

namespace Automaton

variable {automaton : Automaton} {tape : Tape} {events later : List Event}

/-- The state that the last of some events led to, or else the initial one. -/
def stateAfter (automaton : Automaton) (events : List Event) : String :=
  (events.filterMap Event.state?).getLast?.getD automaton.initial

/-- The three events at the given place among the triples are those of the case for the state and
the cell that the replay has reached there. -/
def Prescribes (automaton : Automaton) (tape : Tape) (events : List Event) (index : Nat) : Prop :=
  ∃ case,
    automaton.case? (automaton.stateAfter (events.take (3 * index)))
        (tape.replay (events.take (3 * index))).head = some case ∧
      (events.drop (3 * index)).take 3 = case.events (tape.replay (events.take (3 * index)))

theorem stateAfter_append (automaton : Automaton) (events : List Event) {later : List Event}
    (h : later.filterMap Event.state? = []) :
    automaton.stateAfter (events ++ later) = automaton.stateAfter events := by
  rw [stateAfter, stateAfter, List.filterMap_append, h, List.append_nil]

theorem stateAfter_append_case (automaton : Automaton) (events : List Event) (tape : Tape)
    (case : Case) : automaton.stateAfter (events ++ case.events tape) = case.target := by
  rw [stateAfter, List.filterMap_append, List.getLast?_append]
  rfl

/-- More events change nothing in the triples so far. -/
theorem Prescribes.append {index : Nat} (h : automaton.Prescribes tape events index)
    (hindex : 3 * index + 3 ≤ events.length) (later : List Event) :
    automaton.Prescribes tape (events ++ later) index := by
  have htake : (events ++ later).take (3 * index) = events.take (3 * index) :=
    List.take_append_of_le_length (by omega)
  have hdrop : ((events ++ later).drop (3 * index)).take 3 = (events.drop (3 * index)).take 3 := by
    rw [List.drop_append_of_le_length (by omega), List.take_append_of_le_length]
    rw [List.length_drop]
    omega
  unfold Prescribes
  rw [htake, hdrop]
  exact h

theorem prescribes_case {case : Case} {index : Nat} (hlength : events.length = 3 * index)
    (hcase : automaton.case? (automaton.stateAfter events) (tape.replay events).head = some case) :
    automaton.Prescribes tape (events ++ case.events (tape.replay events)) index := by
  refine ⟨case, ?_⟩
  rw [List.take_left' hlength, List.drop_left' hlength]
  exact ⟨hcase, rfl⟩

end Automaton

namespace Machine

/-! ### What events tell -/

/-- The kinds of the events of a step that follows a case. -/
def triple : List Event.Kind :=
  [.replaced, .moved, .switched]

/-- What some events tell of a machine that did what they say, from the given new tape on. -/
structure Logs (automaton : Automaton) (tape : Tape) (events : List Event) (machine : Machine) :
    Prop where
  /-- The machine works by the automaton. -/
  obeys : machine.automaton = automaton
  /-- The events are triples, as many as the machine counted steps, and behind them nothing but the
  news that there was no case. -/
  kinds : ∃ halts, events.map Event.kind =
    (List.replicate machine.steps triple).flatten ++ List.replicate halts .finished
  /-- If there is such news, then there is still no case. -/
  stuck : .finished ∈ events.map Event.kind → machine.Stuck
  /-- Every event carries what the replay comes to. -/
  retold : tape.Retells events
  /-- Every triple is the one that the automaton has for what the replay has come to. -/
  prescribed : ∀ index < machine.steps, automaton.Prescribes tape events index
  /-- The machine is in the last state that the events tell of, or else in the initial one. -/
  state : machine.state = automaton.stateAfter events
  /-- Its tape is what the replay comes to. -/
  replayed : machine.tape = tape.replay events

variable {automaton : Automaton} {tape : Tape} {events : List Event} {machine left right : Machine}

theorem logs_start (automaton : Automaton) (margin : Margin) (content : Text) :
    Logs automaton (Tape.ofText margin content) [] (start automaton margin content) where
  obeys := rfl
  kinds := ⟨0, rfl⟩
  stuck hmem := absurd hmem List.not_mem_nil
  retold := Tape.retells_nil _
  prescribed index hindex := absurd hindex (Nat.not_lt_zero index)
  state := rfl
  replayed := rfl

theorem length_flatten_replicate_triple (count : Nat) :
    (List.replicate count triple).flatten.length = 3 * count := by
  rw [List.length_flatten, List.map_replicate, List.sum_replicate_nat, Nat.mul_comm]
  rfl

namespace Logs

/-- A log says nothing about status and note. -/
theorem of_sameWork (h : Logs automaton tape events right) (hsame : left.SameWork right) :
    Logs automaton tape events left := by
  obtain ⟨status, pending, rfl⟩ := hsame
  exact ⟨h.obeys, h.kinds, h.stuck, h.retold, h.prescribed, h.state, h.replayed⟩

theorem withStatus (h : Logs automaton tape events machine) (status : Status) :
    Logs automaton tape events { machine with status } :=
  h.of_sameWork ⟨status, machine.pending, rfl⟩

/-- Before a machine is stuck there are triples only. -/
theorem kinds_of_not_stuck (h : Logs automaton tape events machine) (hgoing : ¬ machine.Stuck) :
    events.map Event.kind = (List.replicate machine.steps triple).flatten := by
  obtain ⟨halts, hkinds⟩ := h.kinds
  cases halts with
  | zero => rwa [List.replicate_zero, List.append_nil] at hkinds
  | succ halts =>
    refine absurd (h.stuck ?_) hgoing
    rw [hkinds]
    exact List.mem_append_right _ List.mem_cons_self

theorem three_mul_steps_le (h : Logs automaton tape events machine) :
    3 * machine.steps ≤ events.length := by
  obtain ⟨halts, hkinds⟩ := h.kinds
  rw [← List.length_map Event.kind, hkinds, List.length_append, length_flatten_replicate_triple]
  exact Nat.le_add_right _ _

theorem prescribed_append (h : Logs automaton tape events machine) (later : List Event) :
    ∀ index < machine.steps, automaton.Prescribes tape (events ++ later) index := by
  intro index hindex
  have hlength := h.three_mul_steps_le
  exact (h.prescribed index hindex).append (by omega) later

/-- A step adds a triple, or the news that there was no case. -/
theorem advance (h : Logs automaton tape events machine) (hidle : machine.Idle) :
    Logs automaton tape (events ++ machine.advance.2) machine.advance.1 := by
  cases hcase : machine.automaton.case? machine.state machine.tape.head with
  | some case =>
    have hgoing : ¬ machine.Stuck := by
      intro hstuck
      cases hcase.symm.trans hstuck
    have hkinds := h.kinds_of_not_stuck hgoing
    have hlength : events.length = 3 * machine.steps := by
      rw [← length_flatten_replicate_triple, ← hkinds, List.length_map]
    have htriples : (events ++ case.events machine.tape).map Event.kind =
        (List.replicate (machine.steps + 1) triple).flatten := by
      rw [List.map_append, hkinds, List.replicate_succ', List.flatten_append,
        List.flatten_singleton]
      rfl
    rw [advance_of_case hidle hcase]
    refine ⟨h.obeys, ⟨0, htriples.trans (List.append_nil _).symm⟩, fun hmem => ?_,
      h.retold.append ?_, fun index hindex => ?_, ?_, ?_⟩
    · -- a triple has no such news
      have hkind := List.mem_flatten.mp (htriples ▸ hmem)
      obtain ⟨kinds, hkinds, hmem⟩ := hkind
      rw [List.eq_of_mem_replicate hkinds] at hmem
      exact absurd hmem (by decide)
    · rw [← h.replayed]
      exact Tape.retells_case_events machine.tape case
    · rcases Nat.lt_succ_iff_lt_or_eq.mp hindex with hlt | rfl
      · exact h.prescribed_append _ index hlt
      · rw [h.obeys, h.state, h.replayed] at hcase
        have hprescribes := Automaton.prescribes_case hlength hcase
        rwa [← h.replayed] at hprescribes
    · exact (automaton.stateAfter_append_case events machine.tape case).symm
    · rw [Tape.replay_append, ← h.replayed]
      rfl
  | none =>
    obtain ⟨halts, hkinds⟩ := h.kinds
    rw [advance_of_no_case hidle hcase]
    refine ⟨h.obeys, ⟨halts + 1, ?_⟩, fun _ => hcase, h.retold.append ?_,
      h.prescribed_append _, ?_, ?_⟩
    · rw [List.map_append, hkinds, List.append_assoc, List.replicate_succ']
      rfl
    · rw [← h.replayed]
      exact Tape.retells_cons rfl (Tape.retells_nil _)
    · exact h.state.trans (automaton.stateAfter_append events rfl).symm
    · rw [Tape.replay_append, ← h.replayed]
      rfl

end Logs

end Machine

/-! ### Logs of steps and runs -/

/-- The requests to start over. -/
def Machine.Request.startsOver : Request → Bool
  | .stop | .reset _ => true
  | .step | .run _ | .pause => false

theorem Machine.Request.restart?_eq_none {request : Request} (h : request.startsOver = false)
    (input : Text) : request.restart? input = none := by
  cases request with
  | stop => cases h
  | reset content => cases h
  | step => rfl
  | run limit => rfl
  | pause => rfl

/-- No callback asks to start over. -/
def Call.Staying (calls : List Call) : Prop :=
  ∀ call ∈ calls, ∀ exchange ∈ call.exchanges, exchange.request.startsOver = false

instance (calls : List Call) : Decidable (Call.Staying calls) :=
  inferInstanceAs (Decidable (∀ call ∈ calls, ∀ exchange ∈ call.exchanges,
    exchange.request.startsOver = false))

theorem Call.Staying.restarts_eq {calls : List Call} (h : Call.Staying calls) (input : Text) :
    Call.restarts input calls = [] := by
  rw [Call.restarts, List.flatMap_eq_nil_iff]
  intro call hcall
  rw [List.filterMap_eq_nil_iff]
  intro exchange hexchange
  exact Machine.Request.restart?_eq_none (h call hcall exchange hexchange) input

/-- No error ended the operation, and no callback asked to start over. -/
structure Report.Smooth (report : Report ε) : Prop where
  /-- No error ended it. -/
  completed : report.result.isOk = true
  /-- No callback asked to start over. -/
  staying : Call.Staying report.calls

instance (report : Report ε) : Decidable report.Smooth :=
  decidable_of_iff (report.result.isOk = true ∧ Call.Staying report.calls)
    ⟨fun h => ⟨h.1, h.2⟩, fun h => ⟨h.completed, h.staying⟩⟩

namespace Machine.Logs

variable {automaton : Automaton} {tape : Tape} {events : List Event} {machine : Machine}

theorem step (h : Logs automaton tape events machine) (hidle : machine.Idle) {hooks : Hooks σ ε}
    {host : σ} {told : List Event} (hok : (step hooks machine host).result = .ok told)
    (hstaying : Call.Staying (calls hooks machine host)) :
    Logs automaton tape (events ++ (calls hooks machine host).map Call.event)
      (Machine.step hooks machine host).machine := by
  have hundisturbed := undisturbed_of_ok hok hidle
  rw [hundisturbed.events]
  exact (h.advance hidle).of_sameWork (hundisturbed.unasked (hstaying.restarts_eq _))

/-- The loop of a run adds the events of its calls to a log. -/
theorem stepWhileRunning (h : Logs automaton tape events machine) (hidle : machine.Idle)
    (hooks : Hooks σ ε) (limit taken : Nat) (host : σ) (log : List Call) :
    ∃ calls, (stepWhileRunning hooks.recorded limit taken machine (host, log)).host.2 =
        log ++ calls ∧
      ((stepWhileRunning hooks.recorded limit taken machine (host, log)).result.isOk = true →
        Call.Staying calls →
        Logs automaton tape (events ++ calls.map Call.event)
            (stepWhileRunning hooks.recorded limit taken machine (host, log)).machine ∧
          (stepWhileRunning hooks.recorded limit taken machine (host, log)).machine.Idle) := by
  induction limit generalizing machine taken host log events with
  | zero =>
    refine ⟨[], (List.append_nil log).symm, fun _ _ => ?_⟩
    rw [Machine.stepWhileRunning, List.map_nil, List.append_nil]
    split
    · exact ⟨h.withStatus .paused, hidle.withStatus .paused⟩
    · exact ⟨h, hidle⟩
  | succ limit ih =>
    rw [Machine.stepWhileRunning]
    split
    · rw [step_recorded]
      cases hresult : (Machine.step hooks machine host).result with
      | error fault => exact ⟨_, rfl, fun hok => by cases hok⟩
      | ok told =>
        -- whether the step adds to the log depends on its calls, which come before the later ones
        by_cases hstaying : Call.Staying (calls hooks machine host)
        · obtain ⟨later, hlog, hlater⟩ := ih (h.step hidle hresult hstaying)
            (hidle.step_of_ok hresult) (taken + 1) (Machine.step hooks machine host).host
            (log ++ calls hooks machine host)
          refine ⟨calls hooks machine host ++ later, ?_, fun hok hall => ?_⟩
          · rw [← List.append_assoc]
            exact hlog
          · rw [List.map_append, ← List.append_assoc]
            exact hlater hok fun call hcall => hall call (List.mem_append_right _ hcall)
        · obtain ⟨later, hlater⟩ := stepWhileRunning_recorded hooks limit (taken + 1)
            (Machine.step hooks machine host).machine (Machine.step hooks machine host).host
          refine ⟨calls hooks machine host ++ later, ?_, fun _ hall => absurd ?_ hstaying⟩
          · simp only [hlater, List.append_assoc]
          · exact fun call hcall => hall call (List.mem_append_left _ hcall)
    · refine ⟨[], (List.append_nil log).symm, fun _ _ => ?_⟩
      rw [List.map_nil, List.append_nil]
      exact ⟨h, hidle⟩

theorem run (h : Logs automaton tape events machine) (hidle : machine.Idle) (hooks : Hooks σ ε)
    (limit : Int) (host : σ)
    (hok : (run hooks.recorded limit machine (host, [])).result.isOk = true)
    (hstaying : Call.Staying (run hooks.recorded limit machine (host, [])).host.2) :
    Logs automaton tape
        (events ++ (run hooks.recorded limit machine (host, [])).host.2.map Call.event)
        (run hooks.recorded limit machine (host, [])).machine ∧
      (run hooks.recorded limit machine (host, [])).machine.Idle := by
  rw [run_of_free _ hidle.free] at hok hstaying ⊢
  obtain ⟨calls, hcalls, hlogs⟩ := (h.withStatus .running).stepWhileRunning
    (hidle.withStatus .running) hooks limit.toNat 0 host []
  rw [List.nil_append] at hcalls
  rw [hcalls] at hstaying ⊢
  exact hlogs hok hstaying

/-- A step or a run adds the events of its calls to a log, and a step returns them. -/
theorem operation (h : Logs automaton tape events machine) (hidle : machine.Idle)
    {operation : Operation σ ε} (hdrives : operation.Drives) {host : σ}
    {outcome : Outcome (σ × List Call) ε Reply}
    (hends : operation.recorded.Ends machine (host, []) outcome)
    (hok : outcome.result.isOk = true) (hstaying : Call.Staying outcome.host.2) :
    Logs automaton tape (events ++ outcome.host.2.map Call.event) outcome.machine ∧
      outcome.machine.Idle ∧
      ∀ told, outcome.result = .ok (.events told) → told = outcome.host.2.map Call.event := by
  cases operation with
  | step hooks =>
    subst hends
    rw [step_recorded] at hok hstaying ⊢
    cases hresult : (Machine.step hooks machine host).result with
    | error fault =>
      rw [hresult] at hok
      cases hok
    | ok told =>
      obtain ⟨-, -, -, htold⟩ := exists_session_of_ok hresult hidle.free
      refine ⟨h.step hidle hresult hstaying, hidle.step_of_ok hresult, fun given hgiven => ?_⟩
      obtain rfl := Reply.events.inj (Except.ok.inj hgiven)
      exact htold
  | run hooks limit =>
    have hrun : ∃ bound : Int,
        outcome = (machine.run hooks.recorded bound (host, [])).map .count := by
      cases limit with
      | some bound => exact ⟨bound, hends⟩
      | none =>
        obtain ⟨bound, hbound, -⟩ := hends
        exact ⟨bound, hbound⟩
    obtain ⟨bound, rfl⟩ := hrun
    have hcompleted : (machine.run hooks.recorded bound (host, [])).result.isOk = true := by
      cases hresult : (machine.run hooks.recorded bound (host, [])).result with
      | ok taken => rfl
      | error fault =>
        rw [Outcome.map_of_error hresult] at hok
        cases hok
    obtain ⟨hlogs, hafter⟩ := h.run hidle hooks bound host hcompleted hstaying
    refine ⟨hlogs, hafter, fun told htold => ?_⟩
    obtain ⟨taken, -, htaken⟩ := Outcome.exists_of_map_eq_ok htold
    cases htaken
  | pause => exact hdrives.elim
  | stop => exact hdrives.elim
  | reset content => exact hdrives.elim

/-- The reports of a course together are a log of the machine that is left. -/
theorem course {operations : List (Operation σ ε)} {host : σ} {reports : List (Report ε)}
    {last : Machine} (hcourse : Course operations machine host reports last)
    (h : Logs automaton tape events machine) (hidle : machine.Idle)
    (hdrives : ∀ operation ∈ operations, operation.Drives)
    (hsmooth : ∀ report ∈ reports, report.Smooth) :
    Logs automaton tape (events ++ reports.flatMap fun report => report.calls.map Call.event) last ∧
      ∀ report ∈ reports, ∀ told, report.result = .ok (.events told) →
        told = report.calls.map Call.event := by
  induction hcourse generalizing events with
  | nil machine host =>
    rw [List.flatMap_nil, List.append_nil]
    exact ⟨h, fun _ hmem => absurd hmem List.not_mem_nil⟩
  | cons hends _ ih =>
    rw [List.forall_mem_cons] at hdrives hsmooth
    obtain ⟨hnext, hnextIdle, htold⟩ := h.operation hidle hdrives.1 hends hsmooth.1.completed
      hsmooth.1.staying
    obtain ⟨hlast, hrest⟩ := ih hnext hnextIdle hdrives.2 hsmooth.2
    rw [List.flatMap_cons, ← List.append_assoc, List.forall_mem_cons]
    exact ⟨hlast, htold, hrest⟩

end Machine.Logs

namespace Machine

theorem width_of_build {automaton : Automaton} {width : Int} {content : Text} {built : Machine}
    (h : build automaton width content = .ok built) : (built.margin.width : Int) = width := by
  unfold build at h
  split at h
  · cases h
  · split at h
    · cases h
    · next margin hmargin =>
      obtain rfl := Except.ok.inj h
      exact Margin.ofInt?_width hmargin

/-- The events of steps and runs of a new machine are a complete log of them, as long as no error
leaves a callback and no callback asks to start over. The events that a step returns are those that
its callbacks are called for. -/
theorem events_log_course {automaton : Automaton} {width : Int}
    (hinitial : automaton.initialState?.isSome = true) (hwidth : 1 ≤ width) (content : Text) :
    ∃ built margin, build automaton width content = .ok built ∧ (margin.width : Int) = width ∧
      ∀ (operations : List (Operation σ ε)) (host : σ) (reports : List (Report ε))
        (machine : Machine),
        Course operations built host reports machine →
        (∀ operation ∈ operations, operation.Drives) →
        (∀ report ∈ reports, report.Smooth) →
        Logs automaton (Tape.ofText margin content)
            (reports.flatMap fun report => report.calls.map Call.event) machine ∧
          ∀ report ∈ reports, ∀ told, report.result = .ok (.events told) →
            told = report.calls.map Call.event := by
  obtain ⟨margin, hbuild⟩ := exists_build_eq hinitial hwidth content
  refine ⟨start automaton margin content, margin, hbuild, width_of_build hbuild, ?_⟩
  intro operations host reports machine hcourse hdrives hsmooth
  exact Logs.course hcourse (logs_start automaton margin content)
    (idle_start automaton margin content) hdrives hsmooth

/-- Interrupts the run whenever the head moves. -/
def pauser : Hooks Unit Empty :=
  { (Hooks.silent : Hooks Unit Empty) with
    onMoved := fun _ _ _ _ => .ask .pause fun _ _ => .done () }

/-- The scribe is interrupted between its two steps. Then it halts, and halts again. -/
theorem events_log_course_pauser :
    scribe.automaton.initialState?.isSome = true ∧ (1 : Int) ≤ 2 ∧
      ∃ reports machine,
        Course [.run pauser none, .step .silent, .step .silent] scribe () reports machine ∧
        (∀ report ∈ reports, report.Smooth) ∧ machine.steps = 1 ∧
        (reports.flatMap fun report => report.calls.map Call.event).map Event.kind =
          [.replaced, .moved, .switched, .finished, .finished] ∧
        Logs scribe.automaton (Tape.ofText Margin.default ['a'])
          (reports.flatMap fun report => report.calls.map Call.event) machine := by
  have hinitial : scribe.automaton.initialState?.isSome = true := by decide
  obtain ⟨built, margin, hbuilt, hmargin, hlogs⟩ :=
    @events_log_course Unit Empty scribe.automaton 2 hinitial (by decide) ['a']
  have hscribe : build scribe.automaton 2 ['a'] = .ok scribe := rfl
  obtain rfl := Except.ok.inj (hscribe.symm.trans hbuilt)
  obtain rfl : margin = Margin.default := by
    obtain ⟨width, positive⟩ := margin
    obtain rfl : width = 2 := Int.ofNat.inj hmargin
    rfl
  have hrun : (Operation.run pauser none).recorded.Ends scribe ((), []) _ := ⟨2, rfl, by decide⟩
  have hstep : ∀ machine, (Operation.step (.silent : Hooks Unit Empty)).recorded.Ends machine
      ((), []) _ := fun machine => rfl
  have hcourse := Course.cons hrun (.cons (hstep _) (.cons (hstep _) (.nil _ _)))
  have hlog := hlogs _ _ _ _ hcourse (by simp [Operation.Drives]) (by decide)
  exact ⟨hinitial, by decide, _, _, hcourse, by decide, rfl, rfl, hlog.1⟩

end Machine

end TapeMachine
