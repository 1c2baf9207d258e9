import TapeMachine.Command.Watch

/-!
# TapeMachine.Main

The command itself: it looks at the files, prints what `TapeMachine.Command` says and waits
between the looks of a watch.
-/

namespace TapeMachine.Main

/-- What is at a path of the file system. Opening it tells why there is nothing, if so. -/
def look (path : Path) : IO (Except FileError Files.Node) := do
  try
    let _ ← IO.FS.Handle.mk path.toString .read
    let info ← (← IO.FS.realPath path.toString).metadata
    let modified : Time := info.modified.sec + mkRat info.modified.nsec.toNat 1000000000
    match info.type with
    | .dir => return .ok (.directory modified)
    | _ => return .ok (.file (← IO.FS.readBinFile path.toString) modified)
  catch error =>
    match error with
    | .inappropriateType .. => return .error .notDirectory
    | .invalidArgument .. => return .error .nameTooLong
    | _ => return .error .notFound

/-- The files at some paths, as they are now. -/
def view (paths : List Path) : IO Files := do
  let nodes ← paths.mapM fun path => return (path, ← look path)
  return Files.ofNodes fun path => (nodes.lookup path).getD (.error .notFound)

/-- Prints a transcript and gives its exit code. -/
def present (transcript : Transcript) : IO UInt32 := do
  IO.print transcript.stdout
  (← IO.getStdout).flush
  IO.eprint transcript.stderr
  match transcript.ending with
  | .code value | .exit value => return UInt32.ofNat value
  | .failed failure => do
    IO.eprintln (failure.message)
    return 1

/-- Looks at the program twice a second until a failure ends the watch. -/
partial def watch (options : Options) (remembered : Time) : IO UInt32 := do
  let files ← view [options.input]
  let (time, shown) := Watch.poll options files remembered
  match shown with
  | some transcript => do
    let code ← present transcript
    match transcript.ending with
    | .failed _ => return code
    | _ => pure ()
  | none => pure ()
  IO.sleep 500
  watch options time

end TapeMachine.Main

open TapeMachine in
/-- The command. -/
def main (arguments : List String) : IO UInt32 := do
  match Args.parse arguments with
  | .error stop => Main.present (Command.stopped stop)
  | .ok args => do
    let files ← Main.view [Path.ofString args.input, Options.configPath args]
    match Command.settings files arguments with
    | .error transcript => Main.present transcript
    | .ok options => do
      if options.watch then
        IO.eprint (Watch.greeting options)
        Main.watch options Watch.start
      else Main.present (execute files options)
