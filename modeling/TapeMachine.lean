import TapeMachine.Automaton.Basic
import TapeMachine.Automaton.Listing
import TapeMachine.Automaton.Printer
import TapeMachine.Command.Args
import TapeMachine.Command.Execute
import TapeMachine.Command.Options
import TapeMachine.Command.Watch
import TapeMachine.Diagnostic.Basic
import TapeMachine.Diagnostic.Report
import TapeMachine.Editor.Notices
import TapeMachine.Files.Basic
import TapeMachine.Files.Path
import TapeMachine.Files.Tree
import TapeMachine.Machine.Basic
import TapeMachine.Machine.Hooks
import TapeMachine.Main
import TapeMachine.Program.Basic
import TapeMachine.Program.Declarations
import TapeMachine.Program.Definitions
import TapeMachine.Program.Shape
import TapeMachine.Table
import TapeMachine.Tape.Basic
import TapeMachine.Tape.Snapshot
import TapeMachine.Text.Basic
import TapeMachine.Text.Decimal
import TapeMachine.Text.Lines
import TapeMachine.Text.Printable
import TapeMachine.Text.Quoted
import TapeMachine.Text.Template
import TapeMachine.Text.Units
import TapeMachine.Token.Basic
import TapeMachine.Token.Lexer
import TapeMachine.Token.Listing
import TapeMachine.Toml.Document
import TapeMachine.Toml.Scalar
import TapeMachine.Toml.Value
import TapeMachine.Proofs.Program.Grammar
import TapeMachine.Proofs.Program.Reading
import TapeMachine.Proofs.Token.Spelling
import TapeMachine.Proofs.Token.Extents
import TapeMachine.Proofs.Token.Coverage
import TapeMachine.Proofs.Program.Acceptance
import TapeMachine.Proofs.Automaton.RoundTrip
import TapeMachine.Proofs.Tape.Ideal
import TapeMachine.Proofs.Tape.Actions
import TapeMachine.Proofs.Tape.Growth
import TapeMachine.Proofs.Machine.Steps
import TapeMachine.Proofs.Machine.Turing
import TapeMachine.Proofs.Machine.Recording
import TapeMachine.Proofs.Machine.History
import TapeMachine.Proofs.Machine.Reentrancy
import TapeMachine.Proofs.Machine.StartingOver
import TapeMachine.Proofs.Machine.Halting
import TapeMachine.Proofs.Machine.Pacing
import TapeMachine.Proofs.Program.Closure
import TapeMachine.Proofs.Machine.Soundness
import TapeMachine.Proofs.Command.Verdict
import TapeMachine.Proofs.Program.Order
import TapeMachine.Proofs.Diagnostic.Reporting
import TapeMachine.Proofs.Program.Places
import TapeMachine.Proofs.Program.Course
import TapeMachine.Proofs.Program.Sites
import TapeMachine.Proofs.Program.Layout
import TapeMachine.Proofs.Program.Recovery
import TapeMachine.Proofs.Program.Origin
import TapeMachine.Proofs.Program.Trail
import TapeMachine.Proofs.Diagnostic.ScanOrder
import TapeMachine.Proofs.Machine.Failure
import TapeMachine.Proofs.Machine.EventLog
import TapeMachine.Proofs.Text.Lines
import TapeMachine.Proofs.Diagnostic.Carets
import TapeMachine.Proofs.Editor.Ranges
import TapeMachine.Proofs.Command.Watching
import TapeMachine.Proofs.Text.Coordinates
import TapeMachine.Proofs.Token.Locality
import TapeMachine.Proofs.Program.Progress
