import TapeMachine.Machine.Basic

/-!
# TapeMachine.Machine.Hooks

Machines that tell a host about their work.

A host has a callback for each kind of event. A callback sees the machine and the state `σ` of the
host, and answers with a `Script`: any finite number of requests to the machine, each chosen in
view of the answers so far, and then either a return or an error. The machine calls back after
every effect, before the next one.

* `Script.play` — what a callback does to the machine.
* `Machine.perform` — the effects of a step with the callbacks between them.
* `Machine.step`, `Machine.run` — a step and a run with callbacks.

Design points:

* An error that leaves a callback ends the step at once. The effects it had stay, the machine is
  not busy any more, and a request to start over that was noted stays noted.
* A callback may let the refusal of its own request out, or an error `ε` of the host.
-/

namespace TapeMachine

/-- An error that leaves a callback. -/
inductive Fault (ε : Type) where
  /-- The machine refused a request, and the callback did not handle that. -/
  | refused (error : Machine.Error)
  /-- An error of the host's own. -/
  | host (error : ε)
deriving Repr, DecidableEq

/-- What a callback does: requests to the machine, and then an end. -/
inductive Script (σ ε : Type) where
  /-- Returns, with the new state of the host. -/
  | done (host : σ)
  /-- Lets an error out, with the new state of the host. -/
  | raise (host : σ) (fault : Fault ε)
  /-- Asks something of the machine. The rest may depend on the refusal, if there is one, and on
  the machine as it is then. -/
  | ask (request : Machine.Request) (next : Option Machine.Error → Machine → Script σ ε)

/-- What is left when something was done with callbacks. -/
structure Outcome (σ ε α : Type) where
  /-- The machine. -/
  machine : Machine
  /-- The state of the host. -/
  host : σ
  /-- The result, or the error that left a callback. -/
  result : Except (Fault ε) α

variable {σ ε : Type}

/-- Carries out what a callback does. -/
def Script.play : Script σ ε → Machine → Outcome σ ε Unit
  | .done host, machine => { machine, host, result := .ok () }
  | .raise host fault, machine => { machine, host, result := .error fault }
  | .ask request next, machine =>
    match machine.handle request with
    | .ok machine => (next none machine).play machine
    | .error error => (next (some error) machine).play machine

/-- The callbacks of a host, one for each kind of event. -/
structure Hooks (σ ε : Type) where
  /-- Called when the cell under the head was overwritten. -/
  onReplaced : Tape → String → String → Machine → σ → Script σ ε
  /-- Called when the head moved. -/
  onMoved : Tape → Direction → Machine → σ → Script σ ε
  /-- Called when the machine went to a state. -/
  onSwitched : String → Machine → σ → Script σ ε
  /-- Called when there was no case. -/
  onFinished : Tape → Machine → σ → Script σ ε

namespace Hooks

/-- The callbacks of a host that does not care. -/
def silent : Hooks σ ε :=
  { onReplaced := fun _ _ _ _ host => .done host
    onMoved := fun _ _ _ host => .done host
    onSwitched := fun _ _ host => .done host
    onFinished := fun _ _ host => .done host }

/-- Hands an event to its callback. -/
def respond (hooks : Hooks σ ε) (machine : Machine) (host : σ) : Event → Script σ ε
  | .replaced tape old new => hooks.onReplaced tape old new machine host
  | .moved tape direction => hooks.onMoved tape direction machine host
  | .switched state => hooks.onSwitched state machine host
  | .finished tape => hooks.onFinished tape machine host

@[simp] theorem respond_silent (machine : Machine) (host : σ) (event : Event) :
    (silent : Hooks σ ε).respond machine host event = .done host := by
  cases event <;> rfl

end Hooks

namespace Machine

/-- Some effects in order, with the callbacks after each. -/
def perform (hooks : Hooks σ ε) : List Effect → Machine → σ → Outcome σ ε (List Event)
  | [], machine, host => { machine, host, result := .ok [] }
  | effect :: rest, machine, host =>
    let first := effect.apply machine
    let played := (hooks.respond first.1 host first.2).play first.1
    match played.result with
    | .error fault => { machine := played.machine, host := played.host, result := .error fault }
    | .ok () =>
      let later := perform hooks rest played.machine played.host
      { later with result := later.result.map (first.2 :: ·) }

/-- A step with callbacks. Its result is its events, in order. -/
def step (hooks : Hooks σ ε) (machine : Machine) (host : σ) : Outcome σ ε (List Event) :=
  if machine.busy then { machine, host, result := .error (.refused .stepWhileBusy) }
  else
    let done := perform hooks machine.plan { machine with busy := true } host
    match done.result with
    | .ok events => { machine := done.machine.settle, host := done.host, result := .ok events }
    | .error fault =>
      { machine := { done.machine with busy := false }, host := done.host, result := .error fault }

/-- Steps until the machine is not running any more, at most as many as the first number says; the
second one counts them. A machine that is still running then is paused. -/
def stepWhileRunning (hooks : Hooks σ ε) : Nat → Nat → Machine → σ → Outcome σ ε Nat
  | 0, taken, machine, host =>
    { machine := if machine.status = .running then { machine with status := .paused } else machine
      host
      result := .ok taken }
  | limit + 1, taken, machine, host =>
    if machine.status = .running then
      let done := step hooks machine host
      match done.result with
      | .ok _ => stepWhileRunning hooks limit (taken + 1) done.machine done.host
      | .error fault => { machine := done.machine, host := done.host, result := .error fault }
    else { machine, host, result := .ok taken }

/-- A run with callbacks: steps until the machine halts, is paused or starts over, or until it
took as many as the limit says. Its result is the number of steps, the halting one included. -/
def run (hooks : Hooks σ ε) (limit : Int) (machine : Machine) (host : σ) : Outcome σ ε Nat :=
  if machine.busy then { machine, host, result := .error (.refused .runWhileBusy) }
  else stepWhileRunning hooks limit.toNat 0 { machine with status := .running } host

/-! ### Steps without callbacks -/

/-- With a silent host the effects are those of `applyAll`. -/
theorem perform_silent (effects : List Effect) (machine : Machine) (host : σ) :
    perform (Hooks.silent : Hooks σ ε) effects machine host =
      { machine := (machine.applyAll effects).1
        host
        result := .ok (machine.applyAll effects).2 } := by
  induction effects generalizing machine with
  | nil => rfl
  | cons effect rest ih =>
    simp [perform, applyAll, Script.play, ih, Except.map]

/-- With a silent host a step is `advance`. -/
theorem step_silent {machine : Machine} (h : machine.busy = false) (host : σ) :
    step (Hooks.silent : Hooks σ ε) machine host =
      { machine := machine.advance.1, host, result := .ok machine.advance.2 } := by
  simp [step, h, perform_silent, advance]

end Machine

end TapeMachine
