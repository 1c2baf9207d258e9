import TapeMachine.Command.Execute

/-!
# TapeMachine.Command.Watch

Watching a program.

A watch looks at the program again and again. It runs the program whenever it finds it with
another time of change than the one it remembers, and then remembers that one. What it cannot find
it passes over.

* `Watch.poll` — one look.
* `Watch.session` — a row of looks at files that change, until the files run out.
* `Command.run` — a use of the command on files that change: one run, or a session if it is to
  watch.

Design points:

* The remembered time starts at zero. So a program whose time of change is zero is not run at
  first.
* A failure ends the session.
-/

namespace TapeMachine

namespace Watch

/-- The time that is remembered at first. -/
def start : Time := 0

/-- One look: the time to remember, and what was printed if the program was run. -/
def poll (options : Options) (files : Files) (remembered : Time) : Time × Option Transcript :=
  match files.modified options.input with
  | .ok time =>
    if time = remembered then (remembered, none) else (time, some (execute files options))
  | .error .nullCharacter =>
    (remembered, some
      { stdout := "", stderr := "", ending := .failed (.file .nullCharacter options.input) })
  | .error _ => (remembered, none)

/-- What is printed if nothing is. -/
def silence : Transcript :=
  { stdout := "", stderr := "", ending := .code 0 }

/-- What is printed at each look of a row of them, and then nothing any more. A failure is the
last. -/
def polls (options : Options) (remembered : Time) : List Files → List Transcript
  | [] => [silence]
  | files :: later =>
    let (time, shown) := poll options files remembered
    let transcript := shown.getD silence
    match transcript.ending with
    | .failed _ => [transcript]
    | _ => transcript :: polls options time later

/-- The line that a session starts with. -/
def greeting (options : Options) : String :=
  "Watching " ++ options.input.toString ++ " for changes...\n"

/-- A session: it starts with a line that says so. -/
def session (options : Options) (views : List Files) : List Transcript :=
  match polls options start views with
  | [] => []
  | first :: later => first.after (greeting options) :: later

end Watch

namespace Command

/-- How a row of transcripts ends: with its failure, if it has one, and else well. -/
def endOf (transcripts : List Transcript) : Ending :=
  match transcripts.getLast? with
  | some { ending := .failed failure, .. } => .failed failure
  | _ => .code 0

/-- A use of the command: what is printed, look by look if it watches, and how it ends. The first
of the views is that of the files when it starts. -/
def run (first : Files) (later : List Files) (arguments : List String) : List Transcript × Ending :=
  match settings first arguments with
  | .error transcript => ([transcript], transcript.ending)
  | .ok options =>
    if options.watch then
      let transcripts := Watch.session options (first :: later)
      (transcripts, endOf transcripts)
    else
      let transcript := execute first options
      ([transcript], transcript.ending)

end Command

end TapeMachine
