import TapeMachine.Proofs.Machine.History
import TapeMachine.Proofs.Machine.Turing
import TapeMachine.Tape.Snapshot

/-!
# TapeMachine.Proofs.Machine.StartingOver

What a machine is like after it was told to start over.

Two machines behave the same if no course of operations tells them apart (`SameBehaviour`). A
machine that starts over behaves like a new one, except in one case: if an error left a callback
after one of them had asked to start over, then that request still waits, and starting over from
outside does not withdraw it. The next step that ends meets it.

* `Ledger` — the content in force and the request that waits, as they follow from what callbacks
  asked and from how operations ended. It is kept from reports alone.
* `Machine.ledger` — the same, as the machine keeps it.
* `Ledger.follow_course` — the two agree in every course.
* `Machine.SameBehaviour` — no course tells two machines apart.

A request takes effect when the last callback of a step returns (`Ledger.heed`). If an error leaves
that callback or one before it, then the step does not end, and the request is only heard
(`Ledger.hear`).
-/

namespace TapeMachine

variable {σ ε : Type}

/-! ### What a host can see -/

/-- What a machine shows. -/
structure View where
  /-- The tape. -/
  tape : Snapshot
  /-- The name of the current state. -/
  state : String
  /-- What the machine is doing. -/
  status : Status
  /-- The number of state switches since it last started over. -/
  steps : Nat
  /-- Whether it halted since then. -/
  halted : Bool
deriving Repr, DecidableEq

/-- What a machine shows now. -/
def Machine.view (machine : Machine) : View :=
  { tape := machine.tape.snapshot
    state := machine.state
    status := machine.status
    steps := machine.steps
    halted := machine.halted }

/-- What a callback sees and does. -/
structure Sighting where
  /-- The event it is called for. -/
  event : Event
  /-- What the machine shows. -/
  view : View
  /-- What it asks, with the refusals. -/
  requests : List (Machine.Request × Option Machine.Error)
deriving Repr, DecidableEq

def Call.sighting (call : Call) : Sighting :=
  { event := call.event
    view := call.machine.view
    requests := call.exchanges.map fun exchange => (exchange.request, exchange.refusal) }

/-- What can be seen of an operation: its result, its calls and what the machine shows then. -/
def Report.seen (report : Report ε) : Except (Fault ε) Reply × List Sighting × View :=
  (report.result, report.calls.map Call.sighting, report.machine.view)

/-- No course of operations tells two machines apart. -/
def Machine.SameBehaviour (left right : Machine) : Prop :=
  ∀ (σ ε : Type) (operations : List (Operation σ ε)) (host : σ)
    (seen : List (Except (Fault ε) Reply × List Sighting × View)) (view : View),
    (∃ reports last, Course operations left host reports last ∧
        reports.map Report.seen = seen ∧ last.view = view) ↔
      ∃ reports last, Course operations right host reports last ∧
        reports.map Report.seen = seen ∧ last.view = view

/-! ### The ledger -/

/-- The last effect of a step switches state or halts. -/
def Effect.endsStep : Effect → Bool
  | .switch _ | .halt => true
  | .write _ | .move _ => false

/-- The last event of a step tells of its last effect. -/
def Event.endsStep : Event → Bool
  | .switched _ | .finished _ => true
  | .replaced _ _ _ | .moved _ _ => false

/-- What is to be known of the requests to start over. -/
structure Ledger where
  /-- The content of the latest one that took effect. -/
  inForce : Text
  /-- The content of the one that waits to take effect. -/
  waiting : Option Text
deriving Repr, DecidableEq

namespace Ledger

/-- A callback asks something. -/
def ask (ledger : Ledger) (request : Machine.Request) : Ledger :=
  { ledger with waiting := (request.restart? ledger.inForce).or ledger.waiting }

/-- A step ends. -/
def settle (ledger : Ledger) : Ledger :=
  { inForce := ledger.waiting.getD ledger.inForce, waiting := none }

/-- All that a callback asks. -/
def hear (ledger : Ledger) (call : Call) : Ledger :=
  (call.exchanges.map Exchange.request).foldl ask ledger

/-- All that a callback asks, and that it returns. -/
def heed (ledger : Ledger) (call : Call) : Ledger :=
  if call.event.endsStep then (ledger.hear call).settle else ledger.hear call

/-- The calls of an operation. Unless the operation was completed, an error left the last one. -/
def read (completed : Bool) : Ledger → List Call → Ledger
  | ledger, [] => ledger
  | ledger, [call] => if completed then ledger.heed call else ledger.hear call
  | ledger, call :: next :: rest => read completed (ledger.heed call) (next :: rest)

/-- One operation. From outside of callbacks, starting over takes effect at once. -/
def follow (ledger : Ledger) (report : Report ε) : Operation σ ε → Ledger
  | .step _ | .run _ _ => ledger.read report.result.isOk report.calls
  | .pause | .stop => ledger
  | .reset content => { ledger with inForce := content }

/-- Operations one after the other. -/
def followAll : Ledger → List (Operation σ ε) → List (Report ε) → Ledger
  | ledger, operation :: operations, report :: reports =>
    followAll (ledger.follow report operation) operations reports
  | ledger, _, _ => ledger

/-- The ledger of a history that begins with a new machine. -/
def ofHistory (content : Text) (operations : List (Operation σ ε)) (reports : List (Report ε)) :
    Ledger :=
  followAll { inForce := content, waiting := none } operations reports

theorem read_true (ledger : Ledger) (calls : List Call) :
    ledger.read true calls = calls.foldl heed ledger := by
  induction calls generalizing ledger with
  | nil => rfl
  | cons call rest ih =>
    cases rest with
    | nil => rfl
    | cons next rest => exact ih (ledger.heed call)

/-- Of two stretches of calls only the last call of the second can be one that an error left. -/
theorem read_append (ledger : Ledger) {completed : Bool} (earlier : List Call) {later : List Call}
    (h : later = [] → completed = true) :
    ledger.read completed (earlier ++ later) =
      (earlier.foldl heed ledger).read completed later := by
  induction earlier generalizing ledger with
  | nil => rfl
  | cons call earlier ih =>
    rw [List.cons_append, List.foldl_cons, ← ih (ledger.heed call)]
    cases hrest : earlier ++ later with
    | nil =>
      rw [h (List.append_eq_nil_iff.mp hrest).2]
      rfl
    | cons next rest => rfl

end Ledger

/-! ### The machine keeps the ledger -/

namespace Machine

/-- What a machine keeps of the requests to start over. -/
def ledger (machine : Machine) : Ledger :=
  { inForce := machine.input, waiting := machine.pending }

theorem ledger_settle (machine : Machine) : machine.settle.ledger = machine.ledger.settle := by
  cases hpending : machine.pending with
  | none =>
    rw [settle_of_pending_none hpending]
    simp [ledger, Ledger.settle, hpending]
  | some content =>
    rw [settle_of_pending hpending]
    simp [ledger, Ledger.settle, hpending, start]

theorem plan_getLast? (machine : Machine) :
    machine.plan.getLast?.any Effect.endsStep = true := by
  unfold plan
  split <;> rfl

/-- Only the last effect of a plan ends the step. -/
theorem endsStep_of_performed {machine : Machine} {performed : List Effect}
    (h : performed <+: machine.plan) : ∀ effect ∈ performed.dropLast, effect.endsStep = false := by
  have hplan : ∀ effect ∈ machine.plan.dropLast, effect.endsStep = false := by
    unfold plan
    split <;> simp [Effect.endsStep]
  intro effect hmem
  obtain ⟨rest, hrest⟩ := h
  cases rest with
  | nil =>
    rw [List.append_nil] at hrest
    exact hplan effect (hrest ▸ hmem)
  | cons next rest =>
    refine hplan effect ?_
    rw [← hrest, List.dropLast_append_of_ne_nil (List.cons_ne_nil next rest)]
    exact List.mem_append_left _ (List.mem_of_mem_dropLast hmem)

end Machine

theorem Effect.apply_endsStep (effect : Effect) (machine : Machine) :
    (effect.apply machine).2.endsStep = effect.endsStep := by
  cases effect <;> rfl

theorem Effect.apply_ledger (effect : Effect) (machine : Machine) :
    (effect.apply machine).1.ledger = machine.ledger := by
  cases effect <;> rfl

theorem Dialogue.ledger {machine last : Machine} {exchanges : List Exchange}
    (h : Dialogue machine exchanges last) (hbusy : machine.busy = true) :
    (exchanges.map Exchange.request).foldl Ledger.ask machine.ledger = last.ledger := by
  induction h with
  | silence machine => rfl
  | ask exchange hanswered _ ih =>
    have hcontained := hanswered.contained hbusy
    have hsame := hcontained.sameWork
    have hask : exchange.before.ledger.ask exchange.request = exchange.after.ledger := by
      simp only [Machine.ledger, Ledger.ask, hcontained.pending, hsame.input_eq]
    rw [List.map_cons, List.foldl_cons, hask]
    exact ih (hsame.busy_eq.trans hbusy)

/-- The calls of a step add up to what the machine keeps, and if the step ends, to what it keeps
then. -/
theorem Session.read_ledger {machine last : Machine} {effects : List Effect} {calls : List Call}
    (completed : Bool) (h : Session machine effects calls last) (hbusy : machine.busy = true)
    (hopen : ∀ effect ∈ effects.dropLast, effect.endsStep = false) :
    machine.ledger.read completed calls =
      if completed && effects.getLast?.any Effect.endsStep then last.ledger.settle
      else last.ledger := by
  induction h with
  | rest machine => cases completed <;> rfl
  | @call machine next last effect effects exchanges calls hdialogue hsession ih =>
    have hfirstBusy := (effect.apply_busy machine).trans hbusy
    have hnextBusy := (hdialogue.contained hfirstBusy).1.busy_eq.trans hfirstBusy
    have hhear : ∀ call : Call, call.exchanges = exchanges →
        machine.ledger.hear call = next.ledger := by
      rintro call rfl
      rw [Ledger.hear, ← effect.apply_ledger machine]
      exact hdialogue.ledger hfirstBusy
    cases hsession with
    | rest machine =>
      -- the only call: whether the step ends with it is a matter of its effect
      simp only [Ledger.read, Ledger.heed, hhear, effect.apply_endsStep, List.getLast?_singleton,
        Option.any_some]
      cases completed <;> simp
    | @call _ _ _ second effects _ _ hsecond hrest =>
      have hfirst : effect.endsStep = false := hopen effect (by simp)
      have hlater := ih hnextBusy fun other hother => hopen other (by simp [hother])
      rw [Ledger.read, Ledger.heed, effect.apply_endsStep, hfirst, if_neg Bool.false_ne_true,
        hhear _ rfl, hlater, List.getLast?_cons_cons]

namespace Machine

variable {machine : Machine}

theorem calls_ne_nil (hooks : Hooks σ ε) (hfree : machine.busy = false) (host : σ) :
    calls hooks machine host ≠ [] := by
  obtain ⟨effect, rest, hplan⟩ : ∃ effect rest, machine.plan = effect :: rest := by
    unfold plan
    split <;> exact ⟨_, _, rfl⟩
  have hlog : ∀ given, (perform hooks.recorded (effect :: rest) given (host, [])).host.2 ≠ [] := by
    intro given
    obtain ⟨exchanges, -, hplay⟩ := Script.play_record
      (hooks.respond (effect.apply given).1 host (effect.apply given).2) (effect.apply given).1
    simp only [perform, Hooks.respond_recorded, hplay, List.nil_append]
    split
    · exact List.cons_ne_nil _ _
    · obtain ⟨_, later, -, -, -, hlater⟩ := perform_recorded hooks rest _ _
      rw [hlater]
      exact List.cons_ne_nil _ _
  simp only [calls, step, hfree, Bool.false_eq_true, if_false, hplan]
  split
  · exact hlog _
  · exact hlog _

/-- After a step the ledger is the one that its calls and its result make. -/
theorem read_step (hooks : Hooks σ ε) (hfree : machine.busy = false) (host : σ) :
    machine.ledger.read (step hooks machine host).result.isOk (calls hooks machine host) =
      (step hooks machine host).machine.ledger := by
  obtain ⟨performed, last, hprefix, hsession, hend⟩ := step_cases hooks hfree host
  have hread := fun completed => hsession.read_ledger completed rfl (endsStep_of_performed hprefix)
  rcases hend with ⟨rfl, hmachine, hresult⟩ | ⟨hmachine, fault, hfault⟩
  · rw [hmachine, hresult, ledger_settle]
    refine (hread true).trans ?_
    rw [plan_getLast?]
    rfl
  · rw [hmachine, hfault]
    exact hread false

theorem read_stepWhileRunning {automaton : Automaton} {margin : Margin} (hooks : Hooks σ ε)
    (limit taken : Nat) (h : Kept automaton margin (fun _ => True) machine)
    (hinv : Invariant automaton margin fun _ => True) (host : σ) (log : List Call) :
    ∃ calls, (stepWhileRunning hooks.recorded limit taken machine (host, log)).host.2 =
        log ++ calls ∧
      (calls = [] →
        (stepWhileRunning hooks.recorded limit taken machine (host, log)).result.isOk = true) ∧
      machine.ledger.read
          (stepWhileRunning hooks.recorded limit taken machine (host, log)).result.isOk calls =
        (stepWhileRunning hooks.recorded limit taken machine (host, log)).machine.ledger := by
  induction limit generalizing machine taken host log with
  | zero =>
    refine ⟨[], (List.append_nil log).symm, fun _ => rfl, ?_⟩
    rw [stepWhileRunning]
    split <;> rfl
  | succ limit ih =>
    rw [stepWhileRunning]
    split
    · have hread := read_step hooks h.free host
      rw [step_recorded]
      cases hresult : (step hooks machine host).result with
      | ok events =>
        obtain ⟨later, hlog, hempty, hlater⟩ := ih (taken + 1) (h.step hinv hooks host).2
          (step hooks machine host).host (log ++ calls hooks machine host)
        rw [hresult] at hread
        refine ⟨calls hooks machine host ++ later, ?_, ?_, ?_⟩
        · rw [← List.append_assoc]
          exact hlog
        · intro hnil
          exact hempty (List.append_eq_nil_iff.mp hnil).2
        · rw [Ledger.read_append _ _ hempty, ← Ledger.read_true]
          exact (congrArg (Ledger.read _ · later) hread).trans hlater
      | error fault =>
        rw [hresult] at hread
        exact ⟨calls hooks machine host, rfl,
          fun hnil => absurd hnil (calls_ne_nil hooks h.free host), hread⟩
    · exact ⟨[], (List.append_nil log).symm, fun _ => rfl, rfl⟩

theorem read_run {automaton : Automaton} {margin : Margin} (hooks : Hooks σ ε) (limit : Int)
    (h : Kept automaton margin (fun _ => True) machine)
    (hinv : Invariant automaton margin fun _ => True) (host : σ) :
    machine.ledger.read (run hooks.recorded limit machine (host, [])).result.isOk
        (run hooks.recorded limit machine (host, [])).host.2 =
      (run hooks.recorded limit machine (host, [])).machine.ledger := by
  rw [run, if_neg (by rw [h.free]; exact Bool.false_ne_true)]
  obtain ⟨calls, hlog, -, hread⟩ := read_stepWhileRunning hooks limit.toNat 0
    (h.withStatus hinv .running) hinv host []
  rw [hlog]
  exact hread

end Machine

namespace Ledger

open Machine

theorem follow_operation {automaton : Automaton} {margin : Margin} {machine : Machine}
    (h : Kept automaton margin (fun _ => True) machine)
    (hinv : Invariant automaton margin fun _ => True) {operation : Operation σ ε} {host : σ}
    {outcome : Outcome (σ × List Call) ε Reply}
    (hends : operation.recorded.Ends machine (host, []) outcome) :
    machine.ledger.follow
        ({ result := outcome.result, calls := outcome.host.2, machine := outcome.machine } :
          Report ε) operation =
      outcome.machine.ledger := by
  have hcount : ∀ {α β γ : Type} (result : Except α β) (f : β → γ),
      (result.map f).isOk = result.isOk := by
    intro α β γ result f
    cases result <;> rfl
  cases operation with
  | step hooks =>
    subst hends
    simp only [follow, Outcome.map, hcount, step_recorded]
    exact read_step hooks h.free host
  | run hooks limit =>
    cases limit with
    | some limit =>
      subst hends
      simp only [follow, Outcome.map, hcount]
      exact read_run hooks limit h hinv host
    | none =>
      obtain ⟨limit, rfl, -⟩ := hends
      simp only [follow, Outcome.map, hcount]
      exact read_run hooks limit h hinv host
  | pause =>
    simp only [Operation.recorded, Operation.Ends, pause] at hends
    split at hends
    · next paused hpaused =>
      subst hends
      split at hpaused
      · obtain rfl := Except.ok.inj hpaused
        rfl
      · cases hpaused
    · subst hends
      rfl
  | stop =>
    subst hends
    rw [stop, reset_of_free h.free]
    rfl
  | reset content =>
    subst hends
    rw [reset_of_free h.free]
    rfl

/-- In every course the ledger that is kept from the reports is the one that the machine keeps. -/
theorem follow_course {automaton : Automaton} {margin : Margin} {machine last : Machine}
    {operations : List (Operation σ ε)} {host : σ} {reports : List (Report ε)}
    (hcourse : Course operations machine host reports last)
    (h : Kept automaton margin (fun _ => True) machine)
    (hinv : Invariant automaton margin fun _ => True) :
    machine.ledger.followAll operations reports = last.ledger := by
  induction hcourse with
  | nil machine host => rfl
  | cons hends _ ih =>
    rw [followAll, follow_operation h hinv hends]
    exact ih (h.operation hinv hends).2

end Ledger

/-! ### Telling machines apart -/

namespace Machine

theorem SameBehaviour.refl (machine : Machine) : machine.SameBehaviour machine :=
  fun _ _ _ _ _ _ => Iff.rfl

/-- Machines that behave the same show the same after a step without callbacks. -/
theorem SameBehaviour.view_advance {left right : Machine} (h : left.SameBehaviour right)
    (hleft : left.busy = false) (hright : right.busy = false) :
    left.advance.1.view = right.advance.1.view := by
  have hcourse : ∀ {machine : Machine}, machine.busy = false → ∀ {reports last},
      Course [.step (Hooks.silent : Hooks Unit Empty)] machine () reports last →
        last = machine.advance.1 := by
    intro machine hfree reports last hsteps
    cases hsteps with
    | cons hends hnil =>
      cases hnil
      subst hends
      simp only [Outcome.map, step_recorded, step_silent hfree]
  obtain ⟨reports, last, hlast, -, hview⟩ := (h Unit Empty
    [.step Hooks.silent] () _ _).mpr ⟨_, _, .cons rfl (.nil _ _), rfl, rfl⟩
  rw [← hcourse hleft hlast, hview, hcourse hright (.cons rfl (.nil _ _))]

/-- A request that waits is met by the next step that ends. -/
theorem advance_of_waiting {machine : Machine} {content : Text}
    (h : machine.pending = some content) :
    machine.advance.1 = start machine.automaton machine.margin content := by
  obtain ⟨hautomaton, hmargin⟩ := applyAll_fixed machine.plan { machine with busy := true }
  have hpending := (applyAll_pending machine.plan { machine with busy := true }).trans h
  rw [advance, settle_of_pending hpending, hautomaton, hmargin]

/-- A step of a new machine shows. -/
theorem view_advance_start (automaton : Automaton) (margin : Margin) (content other : Text) :
    (start automaton margin content).advance.1.view ≠ (start automaton margin other).view := by
  have hidle := idle_start automaton margin content
  intro h
  cases hcase : automaton.case? automaton.initial (Tape.ofText margin content).head with
  | none =>
    have hadvance := advance_of_no_case hidle hcase
    rw [hadvance] at h
    exact absurd (congrArg View.halted h) Bool.noConfusion
  | some case =>
    have hadvance := advance_of_case hidle hcase
    rw [hadvance] at h
    exact absurd (congrArg View.steps h) (Nat.succ_ne_zero 0)

/-- A machine that starts over behaves like a new one exactly if no request waits. -/
theorem sameBehaviour_reset_iff {machine : Machine} (hfree : machine.busy = false)
    (content : Text) :
    (machine.reset content).SameBehaviour (start machine.automaton machine.margin content) ↔
      machine.pending = none := by
  rw [reset_of_free hfree]
  constructor
  · intro hsame
    cases hpending : machine.pending with
    | none => rfl
    | some late =>
      rw [hpending] at hsame
      have hview := hsame.view_advance rfl rfl
      rw [advance_of_waiting rfl] at hview
      exact absurd hview.symm (view_advance_start _ _ content late)
  · intro hpending
    rw [hpending]
    exact .refl _

/-- After any history, a machine that starts over behaves like a new one exactly if no request of a
callback waits; if one does, then the next step that ends starts the machine over once more, on the
content of that request. Stopping is starting over on the content in force. -/
theorem reset_starts_over_iff {automaton : Automaton} {width : Int}
    (hinitial : automaton.initialState?.isSome = true) (hwidth : 1 ≤ width) (content : Text) :
    ∃ built, build automaton width content = .ok built ∧
      ∀ (operations : List (Operation σ ε)) (host : σ) (reports : List (Report ε))
        (machine : Machine), Course operations built host reports machine →
        let ledger := Ledger.ofHistory content operations reports
        (∀ other, ∃ fresh, build automaton width other = .ok fresh ∧
            ((machine.reset other).SameBehaviour fresh ↔ ledger.waiting = none) ∧
            ∀ late, ledger.waiting = some late →
              build automaton width late = .ok (machine.reset other).advance.1) ∧
          machine.stop.SameBehaviour (machine.reset ledger.inForce) := by
  obtain ⟨margin, hbuild⟩ := exists_margin_build_eq hinitial hwidth
  refine ⟨_, hbuild content, fun operations host reports machine hcourse => ?_⟩
  have hinv : Invariant automaton margin fun _ => True :=
    ⟨fun _ => trivial, fun _ _ _ _ _ => trivial, fun _ _ _ _ => trivial⟩
  have hstart := hinv.kept_start content
  obtain ⟨hkept, -⟩ := hstart.course hcourse hinv
  have hledger : Ledger.ofHistory content operations reports = machine.ledger :=
    Ledger.follow_course hcourse hstart hinv
  rw [hledger]
  refine ⟨fun other => ⟨_, hbuild other, ?_, fun late hlate => ?_⟩, .refl _⟩
  · have hiff := sameBehaviour_reset_iff hkept.free other
    rwa [hkept.automaton, hkept.margin] at hiff
  · have hreset := reset_of_free hkept.free other
    rw [hbuild late, advance_of_waiting (by rw [hreset]; exact hlate), hreset]
    show _ = Except.ok (start machine.automaton machine.margin late)
    rw [hkept.automaton, hkept.margin]

/-- Asks to start over as soon as something is written, and then lets an error out. -/
def quitter : Hooks Unit Unit :=
  { Hooks.silent with
    onReplaced := fun _ _ _ _ _ => .ask (.reset ['z']) fun _ _ => .raise () (.host ()) }

/-- The request of the quitter waits, and the machine that started over on its old content does not
behave like the new one that it was: after a step it is on the other content. -/
theorem reset_starts_over_iff_quitter :
    scribe.automaton.initialState?.isSome = true ∧ (1 : Int) ≤ 2 ∧
      build scribe.automaton 2 ['a'] = .ok scribe ∧
      ∃ (reports : List (Report Unit)) (machine : Machine),
        Course [.step quitter] scribe () reports machine ∧
        (Ledger.ofHistory ['a'] [.step quitter] reports).waiting = some ['z'] ∧
        ¬ (machine.reset ['a']).SameBehaviour scribe ∧
        build scribe.automaton 2 ['z'] = .ok (machine.reset ['a']).advance.1 ∧
        machine.stop.SameBehaviour (machine.reset ['a']) := by
  have hbuild : build scribe.automaton 2 ['a'] = .ok scribe := rfl
  have hinitial : scribe.automaton.initialState?.isSome = true := by decide
  have hwidth : (1 : Int) ≤ 2 := by decide
  obtain ⟨built, hbuilt, hhistory⟩ :=
    @reset_starts_over_iff Unit Unit scribe.automaton 2 hinitial hwidth ['a']
  obtain rfl := Except.ok.inj (hbuild.symm.trans hbuilt)
  have hends : (Operation.step quitter).recorded.Ends scribe ((), []) _ := rfl
  have hcourse := Course.cons hends (.nil _ _)
  obtain ⟨hreset, hstop⟩ := hhistory _ _ _ _ hcourse
  obtain ⟨fresh, hfresh, hsame, hlate⟩ := hreset ['a']
  obtain rfl := Except.ok.inj (hbuild.symm.trans hfresh)
  refine ⟨hinitial, hwidth, hbuild, _, _, hcourse, rfl, fun h => ?_, hlate _ rfl, hstop⟩
  exact absurd (hsame.mp h) (by decide)

/-- Starting over does not always behave like starting: a request that an error left behind
survives it. -/
theorem not_reset_starts_over :
    ¬ ∀ (operations : List (Operation Unit Unit)) (reports : List (Report Unit))
        (machine : Machine), Course operations scribe () reports machine →
        ∀ fresh, build scribe.automaton 2 ['a'] = .ok fresh →
          (machine.reset ['a']).SameBehaviour fresh := by
  intro hclaim
  have hends : (Operation.step quitter).recorded.Ends scribe ((), []) _ := rfl
  have hcourse := Course.cons hends (.nil _ _)
  have hsame := hclaim _ _ _ hcourse scribe rfl
  exact absurd ((sameBehaviour_reset_iff rfl ['a']).mp hsame) (by decide)

end Machine

end TapeMachine
