import TapeMachine.Proofs.Machine.History
import TapeMachine.Proofs.Machine.Turing
import TapeMachine.Proofs.Program.Closure

/-!
# TapeMachine.Proofs.Machine.Soundness

The machine of a program that compiles is in a sound state at every moment.

* `Tape.Lettered` is kept by writing single characters and by moving.
* `Machine.Sound` — the state is a declared one, every cell holds one character, and a snapshot
  fits the tape.
* `Effect.Fits` — what an effect has to satisfy to keep a machine sound. All effects that a
  well-formed automaton plans do (`Automaton.WellFormed.fits_plan`).
* `Machine.invariant_sound` — so soundness is an invariant, and holds all along every course.
-/

namespace TapeMachine

/-! ### Cells of one character -/

namespace Tape

variable {tape : Tape}

theorem lettered_iff :
    tape.Lettered ↔ (∀ cell ∈ tape.left, cell.length = 1) ∧ tape.head.length = 1 ∧
      ∀ cell ∈ tape.right, cell.length = 1 := by
  simp only [Lettered, cells, List.forall_mem_append, List.mem_reverse, List.forall_mem_cons]

theorem length_of_mem_blanks {count : Nat} : ∀ cell ∈ blanks count, cell.length = 1 := by
  intro cell hcell
  rw [List.eq_of_mem_replicate hcell]
  rfl

theorem length_of_mem_pad {count : Nat} {side : List String}
    (h : ∀ cell ∈ side, cell.length = 1) : ∀ cell ∈ pad count side, cell.length = 1 := by
  unfold pad
  split
  · rw [List.forall_mem_append]
    exact ⟨h, @length_of_mem_blanks 1⟩
  · exact h

theorem length_head?_getD {side : List String} (h : ∀ cell ∈ side, cell.length = 1) :
    (side.head?.getD blank).length = 1 := by
  cases side with
  | nil => rfl
  | cons cell rest => exact h cell List.mem_cons_self

theorem lettered_ofText (margin : Margin) (content : Text) : (ofText margin content).Lettered := by
  have hcells : ∀ cell ∈ content.map fun c => String.ofList [c], cell.length = 1 := by
    intro cell hcell
    obtain ⟨c, -, rfl⟩ := List.mem_map.mp hcell
    exact congrArg List.length (String.toList_ofList (l := [c]))
  rw [lettered_iff]
  refine ⟨length_of_mem_blanks, length_head?_getD hcells, ?_⟩
  show ∀ cell ∈ _ ++ blanks margin.width, _
  rw [List.forall_mem_append]
  exact ⟨fun cell hcell => hcells cell (List.mem_of_mem_tail hcell), length_of_mem_blanks⟩

theorem Lettered.write (h : tape.Lettered) {symbol : String} (hsymbol : symbol.length = 1) :
    (tape.write symbol).Lettered := by
  rw [lettered_iff] at h ⊢
  exact ⟨h.1, hsymbol, h.2.2⟩

theorem Lettered.move (h : tape.Lettered) (direction : Direction) :
    (tape.move direction).Lettered := by
  rw [lettered_iff] at h ⊢
  obtain ⟨hleft, hhead, hright⟩ := h
  cases direction with
  | left =>
    refine ⟨length_of_mem_pad fun cell hcell => hleft cell (List.mem_of_mem_tail hcell),
      length_head?_getD hleft, ?_⟩
    exact List.forall_mem_cons.mpr ⟨hhead, hright⟩
  | right =>
    refine ⟨?_, length_head?_getD hright,
      length_of_mem_pad fun cell hcell => hright cell (List.mem_of_mem_tail hcell)⟩
    exact List.forall_mem_cons.mpr ⟨hhead, hleft⟩

theorem Lettered.length_snapshot (h : tape.Lettered) :
    tape.snapshot.cells.length = tape.cells.length := by
  rw [h.cells_eq, List.length_map]

/-- What a snapshot shows at its pointer is the cell under the head. -/
theorem Lettered.current?_snapshot (h : tape.Lettered) :
    ∃ c, tape.snapshot.current? = some c ∧ tape.head = String.ofList [c] := by
  have hhead := tape.cells_getElem?_pointer
  rw [h.cells_eq, List.getElem?_map, Option.map_eq_some_iff] at hhead
  obtain ⟨c, hc, hletter⟩ := hhead
  refine ⟨c, ?_, hletter.symm⟩
  have hpointer : ¬ (tape.snapshot.pointer < 0) := Int.not_lt.mpr (Int.natCast_nonneg _)
  rw [Snapshot.current?, if_neg hpointer, if_neg hpointer]
  exact hc

end Tape

/-! ### Sound machines -/

namespace Machine

/-- The state is one of the automaton, every cell of the tape holds one character, and a snapshot
of the tape has as many characters, a pointer within, and the cell under the head there. -/
structure Sound (automaton : Automaton) (machine : Machine) : Prop where
  state : machine.state ∈ automaton.states.names
  cells : ∀ cell ∈ machine.tape.cells, cell.length = 1
  length : machine.tape.snapshot.cells.length = machine.tape.cells.length
  pointer : 0 ≤ machine.tape.snapshot.pointer ∧
    machine.tape.snapshot.pointer < machine.tape.snapshot.cells.length
  current : ∃ c, machine.tape.snapshot.current? = some c ∧ machine.tape.head = String.ofList [c]

variable {automaton : Automaton} {machine : Machine}

theorem Sound.of_lettered (hstate : machine.state ∈ automaton.states.names)
    (htape : machine.tape.Lettered) : machine.Sound automaton := by
  refine ⟨hstate, htape, htape.length_snapshot, ⟨Int.natCast_nonneg _, ?_⟩,
    htape.current?_snapshot⟩
  rw [htape.length_snapshot, Tape.cells_length]
  exact Int.ofNat_lt.mpr (by rw [Tape.pointer]; omega)

end Machine

/-- An effect writes a single character, if it writes, and leads to a state of the automaton, if it
switches. -/
def Effect.Fits (automaton : Automaton) : Effect → Prop
  | .write symbol => symbol.length = 1
  | .switch state => state ∈ automaton.states.names
  | .move _ | .halt => True

namespace Machine

variable {automaton : Automaton} {machine : Machine}

theorem Sound.apply (h : machine.Sound automaton) {effect : Effect} (hfits : effect.Fits automaton) :
    (effect.apply machine).1.Sound automaton := by
  cases effect with
  | write symbol => exact .of_lettered h.state (Tape.Lettered.write h.cells hfits)
  | move direction => exact .of_lettered h.state (Tape.Lettered.move h.cells direction)
  | switch state => exact .of_lettered hfits h.cells
  | halt => exact .of_lettered h.state h.cells

theorem Sound.applyAll {effects : List Effect} (h : machine.Sound automaton)
    (hfits : ∀ effect ∈ effects, effect.Fits automaton) :
    (machine.applyAll effects).1.Sound automaton := by
  induction effects generalizing machine with
  | nil => exact h
  | cons effect effects ih =>
    rw [List.forall_mem_cons] at hfits
    exact ih (h.apply hfits.1) hfits.2

/-- All that a step of a well-formed automaton does fits it. -/
theorem fits_plan (h : machine.automaton.WellFormed) :
    ∀ effect ∈ machine.plan, effect.Fits machine.automaton := by
  cases hcase : machine.automaton.case? machine.state machine.tape.head with
  | none =>
    rw [plan_of_no_case hcase]
    exact List.forall_mem_singleton.mpr trivial
  | some case =>
    obtain ⟨hreplacement, htarget⟩ := h.of_case? hcase
    rw [plan_of_case hcase]
    simp only [List.forall_mem_cons, List.not_mem_nil, false_implies, implies_true, and_true]
    exact ⟨hreplacement, trivial, htarget⟩

/-- On a well-formed automaton, soundness is an invariant. -/
theorem invariant_sound (h : automaton.WellFormed) (margin : Margin) :
    Invariant automaton margin (Sound automaton) := by
  refine ⟨fun content => ?_, fun machine status busy pending hsound => ?_,
    fun machine count hautomaton hsound => ?_⟩
  · exact .of_lettered h.initial (Tape.lettered_ofText margin content)
  · exact .of_lettered hsound.state hsound.cells
  · subst hautomaton
    exact hsound.applyAll fun effect heffect => fits_plan h effect (List.mem_of_mem_take heffect)

/-- A machine is sound, and at every moment of every course: between the operations, when a
callback is called, and before and after all that it asks. A run that never ends has no report, but
up to any moment it is a run with a limit. -/
structure AlwaysSound (automaton : Automaton) (machine : Machine) : Prop where
  now : machine.Sound automaton
  later : ∀ {σ ε : Type} {operations : List (Operation σ ε)} {host : σ} {reports : List (Report ε)}
    {last : Machine}, Course operations machine host reports last →
      last.Sound automaton ∧ ∀ report ∈ reports, report.machine.Sound automaton ∧
        ∀ call ∈ report.calls, call.Throughout (Sound automaton)

theorem alwaysSound_start (h : automaton.WellFormed) (margin : Margin) (content : Text) :
    (start automaton margin content).AlwaysSound automaton := by
  have hinv := invariant_sound h margin
  have hkept := hinv.kept_start content
  refine ⟨hkept.holds, fun hcourse => ?_⟩
  obtain ⟨hlast, hreports⟩ := hkept.course hcourse hinv
  exact ⟨hlast.holds, hreports⟩

/-- A text that compiles gives a closed automaton, with the declared states in order, and every
machine for it is always sound. -/
theorem sound_of_ok {source : Text} (h : (Compilation.ofText source).ok = true) :
    ∃ automaton, (Compilation.ofText source).automaton = some automaton ∧
      automaton.WellFormed ∧
      automaton.states.names = (Compilation.ofText source).bindings.states ∧
      ∀ (width : Int) (content : Text), 1 ≤ width →
        ∃ machine, build automaton width content = .ok machine ∧
          machine.AlwaysSound automaton := by
  obtain ⟨automaton, hautomaton, hwellFormed, hnames⟩ := Compilation.exists_wellFormed_of_ok h
  refine ⟨automaton, hautomaton, hwellFormed, hnames, fun width content hwidth => ?_⟩
  have hinitial : automaton.initialState?.isSome = true :=
    (Table.has_eq_true_iff _ _).mpr hwellFormed.initial
  obtain ⟨margin, hbuild⟩ := exists_build_eq hinitial hwidth content
  exact ⟨_, hbuild, alwaysSound_start hwellFormed margin content⟩

/-- Two states, a constant that is used before it is defined, and a string. -/
def relay : Text :=
  "define note \"x\" initial state s \x7b a/'b',R->t \x7d state t \x7b \x7d define a 'a'".toList

/-- Asks for other content when the head has moved, and then lets an error out. -/
def dropout : Hooks Unit Unit :=
  { Hooks.silent with
    onMoved := fun _ _ _ _ => .ask (.reset ['z']) fun _ _ => .raise () (.host ()) }

theorem sound_of_ok_relay :
    (Compilation.ofText relay).ok = true ∧
      (Compilation.ofText relay).bindings.states = ["s", "t"] ∧
      ∃ automaton machine, (Compilation.ofText relay).automaton = some automaton ∧
        automaton.WellFormed ∧ build automaton 1 ['a'] = .ok machine ∧
        ∃ reports last, Course [.step dropout, .step Hooks.silent, .stop] machine () reports last ∧
          last.Sound automaton := by
  have hok : (Compilation.ofText relay).ok = true := by decide +kernel
  obtain ⟨automaton, hautomaton, hwellFormed, -, hmachines⟩ := sound_of_ok hok
  obtain ⟨machine, hbuild, hsound⟩ := hmachines 1 ['a'] (by decide)
  obtain ⟨reports, last, hcourse⟩ : ∃ reports last,
      Course [.step dropout, .step Hooks.silent, .stop] machine () reports last :=
    ⟨_, _, .cons rfl (.cons rfl (.cons rfl (.nil _ _)))⟩
  exact ⟨hok, by decide +kernel, automaton, machine, hautomaton, hwellFormed, hbuild, reports, last,
    hcourse, (hsound.later hcourse).1⟩

end Machine

end TapeMachine
