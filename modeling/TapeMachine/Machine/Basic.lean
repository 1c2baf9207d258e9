import TapeMachine.Tape.Basic

/-!
# TapeMachine.Machine.Basic

The machine: an automaton at work on a tape.

A step looks up the case of the current state for the cell under the head. If there is one, then
the step has three effects: it writes, moves and switches state. If there is none, then its one
effect is to halt. Each effect gives an event, which carries the tape as it is then.

* `Machine.plan` — the effects of the next step.
* `Effect.apply` — one effect, with its event.
* `Machine.advance` — a whole step without callbacks.
* `Machine.handle` — what the machine answers to a request.

Design points:

* While a step is under way the machine is `busy`. It then refuses to step or run, and a request
  to start over is kept in `pending` until the step has had all its effects (`settle`).
* Halting is not final: a halted machine can be stepped again. It finds no case again and halts
  again.
* `steps` counts the steps that switched state, so the halting one does not count.
-/

namespace TapeMachine

/-- What a machine is doing. -/
inductive Status where
  /-- It is at rest. -/
  | stopped
  /-- It is in a run. -/
  | running
  /-- Its run was interrupted. -/
  | paused
deriving Repr, DecidableEq

/-- The name of a status. -/
def Status.name : Status → String
  | .stopped => "STOPPED"
  | .running => "RUNNING"
  | .paused => "PAUSED"

/-- An automaton at work on a tape. -/
structure Machine where
  /-- The automaton; it never changes. -/
  automaton : Automaton
  /-- The margin of its tapes; it never changes. -/
  margin : Margin
  /-- The content the current tape started with. -/
  input : Text
  /-- The tape. -/
  tape : Tape
  /-- The name of the current state. -/
  state : String
  /-- What the machine is doing. -/
  status : Status
  /-- Whether a step found no case since the machine last started over. -/
  halted : Bool
  /-- The number of state switches since the machine last started over. -/
  steps : Nat
  /-- Whether a step is under way. -/
  busy : Bool
  /-- The content to start over with when the step under way is done. -/
  pending : Option Text
deriving Repr, DecidableEq

/-- What a machine tells about a step. The tape is the one right after the effect. -/
inductive Event where
  /-- The cell under the head was overwritten. -/
  | replaced (tape : Tape) (old new : String)
  /-- The head moved. -/
  | moved (tape : Tape) (direction : Direction)
  /-- The machine went to a state, maybe the same one. -/
  | switched (state : String)
  /-- There was no case. -/
  | finished (tape : Tape)
deriving Repr, DecidableEq

/-- What a step does, part by part. -/
inductive Effect where
  /-- Writes a symbol. -/
  | write (symbol : String)
  /-- Moves the head. -/
  | move (direction : Direction)
  /-- Goes to a state. -/
  | switch (state : String)
  /-- Halts. -/
  | halt
deriving Repr, DecidableEq

namespace Machine

/-- Wrong use of a machine. -/
inductive Error where
  /-- A step was asked for while one was under way. -/
  | stepWhileBusy
  /-- A run was asked for while a step was under way. -/
  | runWhileBusy
  /-- A machine that was not running was asked to pause. -/
  | notRunning (status : Status)
deriving Repr, DecidableEq

/-- The text of an error. -/
def Error.message : Error → String
  | .stepWhileBusy => "cannot step a machine from inside one of its callbacks"
  | .runWhileBusy => "cannot run a machine from inside one of its callbacks"
  | .notRunning status => "can only pause a running machine (status is " ++ status.name ++ ")"

/-- Why there is no machine. -/
inductive BuildError where
  /-- The automaton does not have the initial state it names. -/
  | noInitialState
  /-- The margin is below one. -/
  | thinMargin (width : Int)
deriving Repr, DecidableEq

/-- The text of an error. -/
def BuildError.message : BuildError → String
  | .noInitialState => "automaton has no initial state"
  | .thinMargin width => "tape margin must be at least 1, got " ++ toString width

/-! ### Starting -/

/-- A machine at rest, in the initial state, on a new tape. -/
def start (automaton : Automaton) (margin : Margin) (content : Text) : Machine :=
  { automaton, margin
    input := content
    tape := Tape.ofText margin content
    state := automaton.initial
    status := .stopped
    halted := false
    steps := 0
    busy := false
    pending := none }

/-- A new machine. The automaton is looked at before the margin is. -/
def build (automaton : Automaton) (width : Int) (content : Text) : Except BuildError Machine :=
  if automaton.initialState?.isNone then .error .noInitialState
  else
    match Margin.ofInt? width with
    | none => .error (.thinMargin width)
    | some margin => .ok (start automaton margin content)

/-- Starts over on a new tape. -/
def restart (machine : Machine) (content : Text) : Machine :=
  { machine with
    input := content
    tape := Tape.ofText machine.margin content
    state := machine.automaton.initial
    status := .stopped
    halted := false
    steps := 0 }

/-! ### Requests -/

/-- Starts over on a new tape; while a step is under way, this is only noted. -/
def reset (machine : Machine) (content : Text) : Machine :=
  if machine.busy then { machine with status := .stopped, pending := some content }
  else machine.restart content

/-- Starts over on the content the current tape started with. -/
def stop (machine : Machine) : Machine :=
  machine.reset machine.input

/-- Interrupts a run. -/
def pause (machine : Machine) : Except Error Machine :=
  if machine.status = .running then .ok { machine with status := .paused }
  else .error (.notRunning machine.status)

/-- Ends a step that had all its effects: a request to start over that was noted is met now. -/
def settle (machine : Machine) : Machine :=
  let idle := { machine with busy := false }
  match machine.pending with
  | some content => { idle with pending := none }.reset content
  | none => idle

/-! ### Steps -/

/-- The effects of the next step. -/
def plan (machine : Machine) : List Effect :=
  match machine.automaton.case? machine.state machine.tape.head with
  | some case => [.write case.replacement, .move case.direction, .switch case.target]
  | none => [.halt]

end Machine

/-- One effect on a machine, with the event that tells of it. -/
def Effect.apply (machine : Machine) : Effect → Machine × Event
  | .write symbol =>
    let replaced := machine.tape.replace symbol
    ({ machine with tape := replaced.2 }, .replaced replaced.2 replaced.1 symbol)
  | .move direction =>
    let tape := machine.tape.move direction
    ({ machine with tape }, .moved tape direction)
  | .switch state =>
    ({ machine with state, steps := machine.steps + 1 }, .switched state)
  | .halt =>
    ({ machine with halted := true, status := .stopped }, .finished machine.tape)

namespace Machine

/-- Some effects in order, with their events. -/
def applyAll (machine : Machine) : List Effect → Machine × List Event
  | [] => (machine, [])
  | effect :: rest =>
    let first := effect.apply machine
    let later := applyAll first.1 rest
    (later.1, first.2 :: later.2)

/-- A step without callbacks. -/
def advance (machine : Machine) : Machine × List Event :=
  let done := applyAll { machine with busy := true } machine.plan
  (done.1.settle, done.2)

/-- Steps without callbacks until the machine is not running any more, at most as many as the first
argument says; the second one counts them. A machine that is still running then is paused. -/
def advanceWhileRunning : Nat → Nat → Machine → Machine × Nat
  | 0, taken, machine =>
    (if machine.status = .running then { machine with status := .paused } else machine, taken)
  | limit + 1, taken, machine =>
    if machine.status = .running then advanceWhileRunning limit (taken + 1) machine.advance.1
    else (machine, taken)

/-- What can be asked of a machine. -/
inductive Request where
  /-- To take a step. -/
  | step
  /-- To run for at most some steps. -/
  | run (limit : Int)
  /-- To interrupt its run. -/
  | pause
  /-- To start over on the same content. -/
  | stop
  /-- To start over on other content. -/
  | reset (content : Text)
deriving Repr, DecidableEq

/-- The machine after a request, or why it refuses. -/
def handle (machine : Machine) : Request → Except Error Machine
  | .step => if machine.busy then .error .stepWhileBusy else .ok machine.advance.1
  | .run limit =>
    if machine.busy then .error .runWhileBusy
    else .ok (advanceWhileRunning limit.toNat 0 { machine with status := .running }).1
  | .pause => machine.pause
  | .stop => .ok machine.stop
  | .reset content => .ok (machine.reset content)

/-! ### Small facts -/

@[simp] theorem plan_of_case {machine : Machine} {case : Case}
    (h : machine.automaton.case? machine.state machine.tape.head = some case) :
    machine.plan = [.write case.replacement, .move case.direction, .switch case.target] := by
  simp [plan, h]

@[simp] theorem plan_of_no_case {machine : Machine}
    (h : machine.automaton.case? machine.state machine.tape.head = none) :
    machine.plan = [.halt] := by
  simp [plan, h]

/-- A machine that is busy refuses to step. -/
theorem handle_step_of_busy {machine : Machine} (h : machine.busy = true) :
    machine.handle .step = .error .stepWhileBusy := by
  simp [handle, h]

/-- A machine that is busy refuses to run. -/
theorem handle_run_of_busy {machine : Machine} (h : machine.busy = true) (limit : Int) :
    machine.handle (.run limit) = .error .runWhileBusy := by
  simp [handle, h]

/-- Settling a step always frees the machine. -/
@[simp] theorem settle_busy (machine : Machine) : machine.settle.busy = false := by
  unfold settle
  split <;> simp [reset, restart]

/-- Settling a step leaves nothing to do. -/
@[simp] theorem settle_pending (machine : Machine) : machine.settle.pending = none := by
  unfold settle
  split
  · simp [reset, restart]
  · next h => exact h

end Machine

end TapeMachine
