import TapeMachine.Proofs.Machine.Steps

/-!
# TapeMachine.Proofs.Machine.Recording

What is said between a machine and its host, as data.

A host can be made to keep a record of its calls: `Hooks.recorded` are callbacks that do the same as
others and also write down each event they are called for, the machine they are given, and every
request they make with its answer. Recording changes nothing (`step_recorded`), so the record of a
step can be read off a step of the recording host (`Machine.calls`).

* `Exchange`, `Call` — a request with its answer, and a callback with its requests.
* `Dialogue` — the exchanges of one callback follow from one another.
* `Session` — the calls of some effects follow from one another.
* `Machine.step_cases` — all that a step with callbacks can be.

Facts about what hosts can and cannot do are inductions over `Dialogue` and `Session`. They need no
look at scripts.
-/

namespace TapeMachine

/-- A request of a callback, between the machine before and the one after. -/
structure Exchange where
  /-- The machine that is asked. -/
  before : Machine
  /-- What it is asked. -/
  request : Machine.Request
  /-- Its refusal, if it refuses. -/
  refusal : Option Machine.Error
  /-- The machine when it has answered. -/
  after : Machine

/-- One call of a callback. -/
structure Call where
  /-- The event. -/
  event : Event
  /-- The machine as the callback finds it. -/
  machine : Machine
  /-- What the callback asks, in order. -/
  exchanges : List Exchange

variable {σ ε : Type}

/-! ### Recording hosts -/

/-- The script that does the same and, when it ends, adds a call to the log. -/
def Script.record (event : Event) (given : Machine) (log : List Call) :
    Script σ ε → Machine → List Exchange → Script (σ × List Call) ε
  | .done host, _, exchanges => .done (host, log ++ [{ event, machine := given, exchanges }])
  | .raise host fault, _, exchanges =>
    .raise (host, log ++ [{ event, machine := given, exchanges }]) fault
  | .ask request next, before, exchanges =>
    .ask request fun refusal after =>
      (next refusal after).record event given log after
        (exchanges ++ [{ before, request, refusal, after }])

/-- The callbacks that do the same and keep a log, each for its own events. -/
def Hooks.recorded (hooks : Hooks σ ε) : Hooks (σ × List Call) ε :=
  { onReplaced := fun tape old new machine host =>
      (hooks.onReplaced tape old new machine host.1).record (.replaced tape old new) machine host.2
        machine []
    onMoved := fun tape direction machine host =>
      (hooks.onMoved tape direction machine host.1).record (.moved tape direction) machine host.2
        machine []
    onSwitched := fun state machine host =>
      (hooks.onSwitched state machine host.1).record (.switched state) machine host.2 machine []
    onFinished := fun tape machine host =>
      (hooks.onFinished tape machine host.1).record (.finished tape) machine host.2 machine [] }

theorem Hooks.respond_recorded (hooks : Hooks σ ε) (machine : Machine) (host : σ)
    (log : List Call) (event : Event) :
    hooks.recorded.respond machine (host, log) event =
      (hooks.respond machine host event).record event machine log machine [] := by
  cases event <;> rfl

namespace Machine

/-- The calls of a step. -/
def calls (hooks : Hooks σ ε) (machine : Machine) (host : σ) : List Call :=
  (step hooks.recorded machine (host, [])).host.2

end Machine

/-! ### What can be said -/

/-- The answer is the one of the machine; a refusal leaves it as it was. -/
def Exchange.Answered (exchange : Exchange) : Prop :=
  match exchange.refusal with
  | none => exchange.before.handle exchange.request = .ok exchange.after
  | some error =>
    exchange.before.handle exchange.request = .error error ∧ exchange.after = exchange.before

/-- The exchanges of a callback, each with the machine that the one before left. -/
inductive Dialogue : Machine → List Exchange → Machine → Prop where
  /-- Nothing is asked. -/
  | silence (machine : Machine) : Dialogue machine [] machine
  /-- A request and what follows. -/
  | ask (exchange : Exchange) {rest : List Exchange} {last : Machine} :
    exchange.Answered → Dialogue exchange.after rest last →
    Dialogue exchange.before (exchange :: rest) last

/-- Some effects in order, each with the call that tells of it. -/
inductive Session : Machine → List Effect → List Call → Machine → Prop where
  /-- Nothing is left to do. -/
  | rest (machine : Machine) : Session machine [] [] machine
  /-- An effect, its call, and what follows. -/
  | call {machine next last : Machine} {effect : Effect} {effects : List Effect}
    {exchanges : List Exchange} {calls : List Call} :
    Dialogue (effect.apply machine).1 exchanges next → Session next effects calls last →
    Session machine (effect :: effects)
      ({ event := (effect.apply machine).2, machine := (effect.apply machine).1, exchanges } ::
        calls)
      last

/-- A recorded script does what the script does, and its log has one call more. -/
theorem Script.play_record (script : Script σ ε) (machine : Machine) :
    ∃ exchanges, Dialogue machine exchanges (script.play machine).machine ∧
      ∀ (event : Event) (given : Machine) (log : List Call) (earlier : List Exchange),
        (script.record event given log machine earlier).play machine =
          { machine := (script.play machine).machine
            host := ((script.play machine).host,
              log ++ [{ event, machine := given, exchanges := earlier ++ exchanges }])
            result := (script.play machine).result } := by
  induction script generalizing machine with
  | done host => exact ⟨[], .silence machine, fun _ _ _ _ => by rw [List.append_nil]; rfl⟩
  | raise host fault => exact ⟨[], .silence machine, fun _ _ _ _ => by rw [List.append_nil]; rfl⟩
  | ask request next ih =>
    -- the rest of the script is played on the machine that the answer leaves
    cases hanswer : machine.handle request with
    | ok after =>
      obtain ⟨exchanges, hdialogue, hplay⟩ := ih none after after
      simp only [Script.record, Script.play, hanswer, hplay, List.append_assoc,
        List.singleton_append]
      let exchange : Exchange := { before := machine, request, refusal := none, after }
      exact ⟨exchange :: exchanges, .ask exchange hanswer hdialogue, fun _ _ _ _ => rfl⟩
    | error error =>
      obtain ⟨exchanges, hdialogue, hplay⟩ := ih (some error) machine machine
      simp only [Script.record, Script.play, hanswer, hplay, List.append_assoc,
        List.singleton_append]
      let exchange : Exchange :=
        { before := machine, request, refusal := some error, after := machine }
      exact ⟨exchange :: exchanges, .ask exchange ⟨hanswer, rfl⟩ hdialogue, fun _ _ _ _ => rfl⟩

namespace Machine

/-- Recorded effects are the effects, and the log has their calls more. Where an error leaves a
callback the effects after it are not performed. -/
theorem perform_recorded (hooks : Hooks σ ε) (effects : List Effect) (machine : Machine)
    (host : σ) :
    ∃ performed calls, performed <+: effects ∧
      Session machine performed calls (perform hooks effects machine host).machine ∧
      (∀ events, (perform hooks effects machine host).result = .ok events →
        performed = effects ∧ events = calls.map Call.event) ∧
      ∀ log, perform hooks.recorded effects machine (host, log) =
        { machine := (perform hooks effects machine host).machine
          host := ((perform hooks effects machine host).host, log ++ calls)
          result := (perform hooks effects machine host).result } := by
  induction effects generalizing machine host with
  | nil =>
    refine ⟨[], [], List.prefix_rfl, .rest machine, fun events hevents => ?_, fun log => ?_⟩
    · obtain rfl := Except.ok.inj hevents
      exact ⟨rfl, rfl⟩
    · rw [List.append_nil]
      rfl
  | cons effect effects ih =>
    obtain ⟨exchanges, hdialogue, hplay⟩ := Script.play_record
      (hooks.respond (effect.apply machine).1 host (effect.apply machine).2)
      (effect.apply machine).1
    simp only [perform, Hooks.respond_recorded, hplay, List.nil_append]
    -- from here on only the outcome of the callback matters, not its script
    generalize (hooks.respond (effect.apply machine).1 host (effect.apply machine).2).play
      (effect.apply machine).1 = played at hdialogue
    cases hresult : played.result with
    | error fault =>
      -- the effect before the error counts as performed
      refine ⟨[effect], _, ⟨effects, rfl⟩, .call hdialogue (.rest played.machine), ?_, fun _ => rfl⟩
      intro events hevents
      cases hevents
    | ok done =>
      obtain ⟨performed, calls, hprefix, hsession, hok, hlog⟩ := ih played.machine played.host
      refine ⟨effect :: performed, _, ?_, .call hdialogue hsession, ?_, fun log => ?_⟩
      · exact List.prefix_cons_inj effect |>.mpr hprefix
      · intro events hevents
        cases hrest : (perform hooks effects played.machine played.host).result with
        | error fault =>
          rw [hrest] at hevents
          cases hevents
        | ok later =>
          rw [hrest] at hevents
          obtain rfl := Except.ok.inj hevents
          obtain ⟨rfl, rfl⟩ := hok later hrest
          exact ⟨rfl, rfl⟩
      · rw [hlog, List.append_assoc]
        rfl

/-- All that a step with callbacks can be: all effects of its plan and then the end of the step, or
the first ones and an error that left the last callback. -/
theorem step_cases (hooks : Hooks σ ε) {machine : Machine} (hfree : machine.busy = false)
    (host : σ) :
    ∃ performed last, performed <+: machine.plan ∧
      Session { machine with busy := true } performed (calls hooks machine host) last ∧
      ((performed = machine.plan ∧ (step hooks machine host).machine = last.settle ∧
          (step hooks machine host).result = .ok ((calls hooks machine host).map Call.event)) ∨
        ((step hooks machine host).machine = { last with busy := false } ∧
          ∃ fault, (step hooks machine host).result = .error fault)) := by
  obtain ⟨performed, recorded, hprefix, hsession, hok, hlog⟩ :=
    perform_recorded hooks machine.plan { machine with busy := true } host
  have hcalls : calls hooks machine host = recorded := by
    simp only [calls, step, hfree, hlog, List.nil_append, Bool.false_eq_true, if_false]
    cases (perform hooks machine.plan { machine with busy := true } host).result <;> rfl
  rw [hcalls]
  refine ⟨performed, _, hprefix, hsession, ?_⟩
  simp only [step, hfree, Bool.false_eq_true, if_false]
  cases hresult : (perform hooks machine.plan { machine with busy := true } host).result with
  | ok events =>
    obtain ⟨hperformed, rfl⟩ := hok events hresult
    exact Or.inl ⟨hperformed, rfl, rfl⟩
  | error fault => exact Or.inr ⟨rfl, fault, rfl⟩

/-- A recorded step is the step, and the log has its calls more. -/
theorem step_recorded (hooks : Hooks σ ε) (machine : Machine) (host : σ) (log : List Call) :
    step hooks.recorded machine (host, log) =
      { machine := (step hooks machine host).machine
        host := ((step hooks machine host).host, log ++ calls hooks machine host)
        result := (step hooks machine host).result } := by
  cases hbusy : machine.busy with
  | true => simp [calls, step, hbusy]
  | false =>
    obtain ⟨_, recorded, -, -, -, hlog⟩ :=
      perform_recorded hooks machine.plan { machine with busy := true } host
    simp only [calls, step, hbusy, hlog, List.nil_append, Bool.false_eq_true, if_false]
    cases (perform hooks machine.plan { machine with busy := true } host).result <;> rfl

end Machine

end TapeMachine
