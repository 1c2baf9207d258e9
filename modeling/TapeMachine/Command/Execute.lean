import TapeMachine.Automaton.Listing
import TapeMachine.Command.Options
import TapeMachine.Machine.Hooks
import TapeMachine.Program.Basic
import TapeMachine.Tape.Snapshot
import TapeMachine.Token.Listing

/-!
# TapeMachine.Command.Execute

One use of the command: compile a program, run it and tell about it.

* `Transcript` — what is printed, and how it ends.
* `execute` — compiles and runs a program with given settings.
* `Command.settings` — from the arguments to the settings.

Design points:

* The content of the tape after the run goes to the standard output, all else to the standard
  error.
* The exit code is zero if the machine halted or nothing was to be run, one if the program has
  faults, and two if the step limit was reached first or the settings make no sense.
* What is printed before a failure stays printed: listings come before the report on faults.
-/

namespace TapeMachine

/-- What ends a use of the command without an exit code. -/
inductive Failure where
  /-- A file cannot be read. -/
  | file (error : FileError) (path : Path)
  /-- A file is no UTF-8. -/
  | notText
  /-- The configuration file is no configuration. -/
  | config (error : Toml.Error)
  /-- An option that takes a number was given nothing. -/
  | noNumber
  /-- A diagnostic cannot be worded. -/
  | unprintable (cause : Template.Error)
  /-- There is no machine for the automaton or the margin. -/
  | machine (error : Machine.BuildError)
deriving Repr, DecidableEq

/-- The text of a failure. -/
def Failure.message : Failure → String
  | .file error path => error.message path
  | .notText => "a file is not valid UTF-8"
  | .config error => error.message
  | .noNumber => "'<' not supported between instances of 'list' and 'int'"
  | .unprintable cause => cause.message
  | .machine error => error.message

/-- How a use of the command ends. -/
inductive Ending where
  /-- With an exit code. -/
  | code (value : Nat)
  /-- With an exit code, while the arguments were read. -/
  | exit (value : Nat)
  /-- With a failure. -/
  | failed (failure : Failure)
deriving Repr, DecidableEq

/-- What is printed, and how it ends. -/
structure Transcript where
  /-- The standard output. -/
  stdout : String
  /-- The standard error. -/
  stderr : String
  /-- The end. -/
  ending : Ending
deriving Repr, DecidableEq

namespace Transcript

/-- Prints something on the standard error before all else. -/
def after (stderr : String) (transcript : Transcript) : Transcript :=
  { transcript with stderr := stderr ++ transcript.stderr }

end Transcript

/-! ### Running -/

/-- The callbacks that write a line for every event, the latest first. -/
def traceHooks : Hooks (List String) Empty :=
  { onReplaced := fun _ old new _ lines =>
      .done (("replace " ++ quoted old ++ " -> " ++ quoted new ++ "\n") :: lines)
    onMoved := fun tape direction _ lines =>
      .done (("move " ++ direction.letter ++ "  |" ++ String.join tape.cells ++ "|\n") :: lines)
    onSwitched := fun state _ lines => .done (("state " ++ state ++ "\n") :: lines)
    onFinished := fun _ _ lines => .done ("halt\n" :: lines) }

/-- Runs a machine up to the step limit. The second part is the trace, if one is asked for. -/
def runTraced (options : Options) (machine : Machine) : Machine × String :=
  if options.trace then
    let outcome := machine.run traceHooks options.maxSteps.value ["state " ++ machine.state ++ "\n"]
    (outcome.machine, String.join outcome.host.reverse)
  else
    let silent : Hooks Unit Empty := Hooks.silent
    ((machine.run silent options.maxSteps.value ()).machine, "")

/-- What is told of a machine that ran. -/
def verdict (machine : Machine) : Transcript :=
  let content := String.ofList machine.tape.snapshot.content ++ "\n"
  let steps := toString machine.steps
  if machine.halted then
    { stdout := content
      stderr := "halted in state " ++ machine.state ++ " after " ++ steps ++ " steps\n"
      ending := .code 0 }
  else
    { stdout := content
      stderr := "stopped after " ++ steps ++ " steps without halting (state " ++ machine.state
        ++ ")\n"
      ending := .code 2 }

/-- Runs an automaton with the given settings. -/
def runAutomaton (options : Options) (automaton : Automaton) : Transcript :=
  match Machine.build automaton options.margin.value options.content with
  | .error error => { stdout := "", stderr := "", ending := .failed (.machine error) }
  | .ok machine =>
    let (machine, trace) := runTraced options machine
    (verdict machine).after trace

/-! ### Compiling and running -/

/-- The listings of a compiled program. Tokens that were read from a text can always be listed. -/
def listings (compilation : Compilation) : String :=
  (Token.listing? compilation.tokens).getD ""
    ++ (compilation.automaton.map Automaton.listing).getD ""

/-- Compiles a program text and runs it with the given settings. -/
def executeText (options : Options) (source : Text) : Transcript :=
  let compilation := Compilation.ofText source
  let shown := if options.debug then listings compilation else ""
  let filename := options.input.toString
  let rest : Transcript :=
    match compilation.unwrap filename with
    | .error (.faulty report) => { stdout := "", stderr := report ++ "\n", ending := .code 1 }
    | .error (.unprintable cause) =>
      { stdout := "", stderr := "", ending := .failed (.unprintable cause) }
    | .ok automaton =>
      if options.check then { stdout := "", stderr := filename ++ ": ok\n", ending := .code 0 }
      else runAutomaton options automaton
  rest.after shown

/-- Compiles the program and runs it with the given settings. -/
def execute (files : Files) (options : Options) : Transcript :=
  match files.readText options.input with
  | .ok source => executeText options source
  | .error (.file error) =>
    { stdout := "", stderr := "", ending := .failed (.file error options.input) }
  | .error .notText => { stdout := "", stderr := "", ending := .failed .notText }

namespace Command

/-- What is printed if there are no arguments to work with. -/
def stopped : Args.Stop → Transcript
  | .help => { stdout := Args.help, stderr := "", ending := .exit 0 }
  | .misuse error => { stdout := "", stderr := Args.complaint error, ending := .exit 2 }

/-- What is printed if there are no settings to work with. -/
def unset (args : Args) : Options.Error → Transcript
  | .file error =>
    { stdout := "", stderr := "", ending := .failed (.file error (Options.configPath args)) }
  | .notText => { stdout := "", stderr := "", ending := .failed .notText }
  | .config error => { stdout := "", stderr := "", ending := .failed (.config error) }
  | .noNumber => { stdout := "", stderr := "", ending := .failed .noNumber }
  | .setting error =>
    { stdout := "", stderr := "error: " ++ error.message ++ "\n", ending := .code 2 }

/-- The settings of a use of the command, or what is printed instead. -/
def settings (files : Files) (arguments : List String) : Except Transcript Options :=
  match Args.parse arguments with
  | .error stop => .error (stopped stop)
  | .ok args =>
    match Options.load files args with
    | .error error => .error (unset args error)
    | .ok options => .ok options

end Command

end TapeMachine
