import TapeMachine.Text.Decimal
import TapeMachine.Text.Quoted

/-!
# TapeMachine.Command.Args

The arguments of the command.

Arguments are read in two passes. First each one is sorted by its look alone: a value, an option,
the separator behind which all are values, or something that looks like an option but is none.
Then they are taken from left to right: an option takes the value attached to it or the next
argument, and the first value that no option takes is the input.

* `Item.ofString` — sorts one argument.
* `Draft.take` — takes the arguments from left to right.
* `Args.parse` — both passes, and the check that nothing is missing or left over.

Design points:

* A long option may be shortened as long as no other one starts the same; if several do, that is
  an error of the first pass, so it wins over all others.
* A short option has its value attached to it, or behind an equals sign. Behind `-h`, with or
  without an equals sign, further short options may follow, and they are checked although help is
  all they lead to.
* A separator attached to an option is dropped like any other. The option is then `Given` nothing,
  which takes back what it was given before.
* Asking for help ends the reading of arguments at once, whatever is wrong with those behind.
-/

namespace TapeMachine

/-- The options of the command. -/
inductive Flag where
  /-- Asks for help. -/
  | help
  /-- The content of the tape. -/
  | tape
  /-- The configuration file. -/
  | config
  /-- The most steps of a run. -/
  | maxSteps
  /-- The margin of the tape. -/
  | margin
  /-- Tells of every event. -/
  | trace
  /-- Compiles only. -/
  | check
  /-- Runs again whenever the program changes. -/
  | watch
  /-- Lists tokens and automaton. -/
  | debug
deriving Repr, DecidableEq

namespace Flag

/-- All options, in the order in which they are listed. -/
def all : List Flag :=
  [.help, .tape, .config, .maxSteps, .margin, .trace, .check, .watch, .debug]

/-- The ways to write an option. -/
def spellings : Flag → List String
  | .help => ["-h", "--help"]
  | .tape => ["-t", "--tape"]
  | .config => ["--config"]
  | .maxSteps => ["--max-steps"]
  | .margin => ["--margin"]
  | .trace => ["--trace"]
  | .check => ["--check"]
  | .watch => ["--watch"]
  | .debug => ["--debug"]

/-- An option as messages call it. -/
def title (flag : Flag) : String :=
  String.intercalate "/" flag.spellings

/-- Whether an option takes a value. -/
def takesValue : Flag → Bool
  | .tape | .config | .maxSteps | .margin => true
  | _ => false

/-- All spellings with their options, in order. -/
def table : List (String × Flag) :=
  all.flatMap fun flag => flag.spellings.map fun spelling => (spelling, flag)

/-- The option with a given spelling. -/
def ofSpelling? (spelling : String) : Option Flag :=
  table.lookup spelling

end Flag

/-- What an option was given. -/
inductive Given (α : Type) where
  /-- A value. -/
  | value (value : α)
  /-- The separator in place of a value, that is, no value at all. -/
  | nothing
deriving Repr, DecidableEq

/-- What an option was given by the text attached to it. -/
def Given.ofAttached (text : String) : Given String :=
  if text == "--" then .nothing else .value text

/-- The arguments of the command. -/
structure Args where
  /-- The program to compile. -/
  input : String
  /-- The content of the tape. -/
  tape : Option (Given String)
  /-- The configuration file. -/
  config : Option (Given String)
  /-- The most steps of a run. -/
  maxSteps : Option (Given Int)
  /-- The margin of the tape. -/
  margin : Option (Given Int)
  /-- Whether to tell of every event. -/
  trace : Bool
  /-- Whether to compile only. -/
  check : Bool
  /-- Whether to run again whenever the program changes. -/
  watch : Bool
  /-- Whether to list tokens and automaton. -/
  debug : Bool
deriving Repr, DecidableEq

namespace Args

/-- What can be wrong with arguments. -/
inductive Error where
  /-- An argument that could be short for several options. -/
  | ambiguous (argument : String) (candidates : List String)
  /-- An option without its value. -/
  | missingValue (flag : Flag)
  /-- An option whose value is no whole number. -/
  | notANumber (flag : Flag) (value : String)
  /-- An option with a value that takes none. -/
  | unwantedValue (flag : Flag) (value : String)
  /-- There is no input. -/
  | missingInput
  /-- Arguments that nothing took. -/
  | unrecognized (arguments : List String)
deriving Repr, DecidableEq

/-- The text of an error. -/
def Error.message : Error → String
  | .ambiguous argument candidates =>
    "ambiguous option: " ++ argument ++ " could match " ++ String.intercalate ", " candidates
  | .missingValue flag => "argument " ++ flag.title ++ ": expected one argument"
  | .notANumber flag value => "argument " ++ flag.title ++ ": invalid int value: " ++ quoted value
  | .unwantedValue flag value =>
    "argument " ++ flag.title ++ ": ignored explicit argument " ++ quoted value
  | .missingInput => "the following arguments are required: input"
  | .unrecognized arguments => "unrecognized arguments: " ++ String.intercalate " " arguments

/-- Why there are no arguments to work with. -/
inductive Stop where
  /-- Help was asked for. -/
  | help
  /-- The arguments are wrong. -/
  | misuse (error : Error)
deriving Repr, DecidableEq

/-! ### Sorting -/

/-- What is attached to an option. -/
inductive Attachment where
  /-- Nothing. -/
  | nothing
  /-- A text behind a long option and an equals sign. -/
  | equals (text : String)
  /-- A text behind a short option, with or without an equals sign between them. -/
  | joined (text : String)
deriving Repr, DecidableEq

/-- An argument by its look. -/
inductive Item where
  /-- A value. -/
  | value (text : String)
  /-- An option. -/
  | option (flag : Flag) (attachment : Attachment)
  /-- What looks like an option but is none. -/
  | unknown (text : String)
  /-- The separator, two hyphens. -/
  | separator
deriving Repr, DecidableEq

/-- Whether a text, apart from a line feed at its end, is a number with a minus sign: digits, with
or without a point before the last of them. -/
def looksNegative : Text → Bool
  | '-' :: rest =>
    let body := if rest.getLast? == some '\n' then rest.dropLast else rest
    match body.dropWhile Decimal.isDigit with
    | [] => !body.isEmpty
    | '.' :: decimals => !decimals.isEmpty && decimals.all Decimal.isDigit
    | _ => false
  | _ => false

/-- The text up to the first equals sign, and the text behind it if there is one. -/
def splitEquals (argument : String) : String × Attachment :=
  let name := argument.toList.takeWhile (· != '=')
  match argument.toList.drop name.length with
  | [] => (argument, .nothing)
  | _ :: value => (String.ofList name, .equals (String.ofList value))

/-- The options that a long argument may be short for. -/
def longCandidates (name : String) : List (String × Flag) :=
  Flag.table.filter fun entry => name.toList.isPrefixOf entry.1.toList

/-- An argument that is no option: a value if it looks like a negative number or holds a blank. -/
def Item.ofStranger (argument : String) : Item :=
  if looksNegative argument.toList || argument.toList.contains ' ' then .value argument
  else .unknown argument

/-- Sorts an argument that starts with two hyphens. -/
def Item.ofLong (argument : String) : Except Error Item :=
  let (name, attachment) := splitEquals argument
  match longCandidates name with
  | [] => .ok (.ofStranger argument)
  | [(_, flag)] => .ok (.option flag attachment)
  | candidates => .error (.ambiguous argument (candidates.map Prod.fst))

/-- Sorts an argument that starts with one hyphen. -/
def Item.ofShort (argument : String) : Item :=
  match Flag.ofSpelling? (String.ofList (argument.toList.take 2)) with
  | some flag => .option flag (.joined (String.ofList (argument.toList.drop 2)))
  | none => .ofStranger argument

/-- Sorts an argument that is not the separator. -/
def Item.ofString (argument : String) : Except Error Item :=
  match argument.toList with
  | '-' :: second :: _ =>
    match Flag.ofSpelling? argument with
    | some flag => .ok (.option flag .nothing)
    | none =>
      let (name, attachment) := splitEquals argument
      match Flag.ofSpelling? name, attachment with
      | some flag, .equals text =>
        .ok (.option flag (if second == '-' then .equals text else .joined text))
      | _, _ => if second == '-' then Item.ofLong argument else .ok (.ofShort argument)
  | _ => .ok (.value argument)

/-- Sorts all arguments. Behind the first separator all are values. -/
def sort : List String → Except Error (List Item)
  | [] => .ok []
  | argument :: rest =>
    if argument == "--" then .ok (.separator :: rest.map .value)
    else do
      let item ← Item.ofString argument
      let items ← sort rest
      return item :: items

/-! ### Taking -/

/-- What was taken so far. -/
structure Draft where
  /-- The input. -/
  input : Option String
  /-- The values of the options; the input in it says nothing. -/
  args : Args
  /-- What nothing took, the latest first. -/
  left : List String

namespace Draft

/-- Nothing was taken yet. -/
def empty : Draft :=
  { input := none
    args :=
      { input := "", tape := none, config := none, maxSteps := none, margin := none
        trace := false, check := false, watch := false, debug := false }
    left := [] }

/-- Reads the number of an option. -/
def number (flag : Flag) : Given String → Except Stop (Given Int)
  | .nothing => .ok .nothing
  | .value text =>
    match Decimal.read? text.toList with
    | some number => .ok (.value number)
    | none => .error (.misuse (.notANumber flag text))

/-- Gives an option its value. -/
def setValue (draft : Draft) (flag : Flag) (given : Given String) : Except Stop Draft :=
  match flag with
  | .tape => .ok { draft with args := { draft.args with tape := some given } }
  | .config => .ok { draft with args := { draft.args with config := some given } }
  | .maxSteps => do
    let number ← number flag given
    return { draft with args := { draft.args with maxSteps := some number } }
  | .margin => do
    let number ← number flag given
    return { draft with args := { draft.args with margin := some number } }
  | _ => .ok draft

/-- Sets an option that takes no value. -/
def setFlag (draft : Draft) (flag : Flag) : Except Stop Draft :=
  match flag with
  | .help => .error .help
  | .trace => .ok { draft with args := { draft.args with trace := true } }
  | .check => .ok { draft with args := { draft.args with check := true } }
  | .watch => .ok { draft with args := { draft.args with watch := true } }
  | .debug => .ok { draft with args := { draft.args with debug := true } }
  | _ => .ok draft

/-- What follows a request for help in the same argument. An `h` asks again, a `t` takes what
follows it or, as `valueNext` tells, the next argument; anything else is a value that help does
not take. It leads to help or to an error. -/
def afterHelp (valueNext : Bool) : Text → Stop
  | [] => .help
  | 'h' :: rest => afterHelp valueNext rest
  | ['t'] => if valueNext then .help else .misuse (.missingValue .tape)
  | 't' :: _ => .help
  | rest => .misuse (.unwantedValue .help (String.ofList rest))

/-- Keeps an argument that nothing took. -/
def leave (draft : Draft) (argument : String) : Draft :=
  { draft with left := argument :: draft.left }

/-- Whether the first of some items is a value. -/
def startsWithValue : List Item → Bool
  | .value _ :: _ => true
  | _ => false

/-- Takes sorted arguments from left to right. The first value is the input; a separator right
behind it or right before it is dropped. -/
def take : Draft → List Item → Except Stop Draft
  | draft, [] => .ok draft
  | draft, .unknown text :: rest => take (draft.leave text) rest
  | draft, .value text :: rest =>
    if draft.input.isSome then take (draft.leave text) rest
    else
      let draft := { draft with input := some text }
      match rest with
      | .separator :: behind => take draft behind
      | rest => take draft rest
  | draft, .separator :: rest =>
    if draft.input.isSome then take (draft.leave "--") rest
    else
      match rest with
      | .value text :: behind => take { draft with input := some text } behind
      | rest => take (draft.leave "--") rest
  | draft, .option flag attachment :: rest =>
    if flag.takesValue then
      match attachment with
      | .equals text | .joined text => do take (← draft.setValue flag (.ofAttached text)) rest
      | .nothing =>
        match rest with
        | .value text :: behind => do take (← draft.setValue flag (.value text)) behind
        | _ => .error (.misuse (.missingValue flag))
    else
      match attachment with
      | .equals text => .error (.misuse (.unwantedValue flag text))
      | .joined "" => .error (.misuse (.unwantedValue flag ""))
      | .joined text => .error (afterHelp (startsWithValue rest) text.toList)
      | .nothing => do take (← draft.setFlag flag) rest

end Draft

/-- Reads the arguments of the command. -/
def parse (arguments : List String) : Except Stop Args :=
  match sort arguments with
  | .error error => .error (.misuse error)
  | .ok items => do
    let draft ← Draft.empty.take items
    match draft.input, draft.left with
    | none, _ => throw (.misuse .missingInput)
    | some input, [] => return { draft.args with input }
    | some _, left => throw (.misuse (.unrecognized left.reverse))

/-! ### Usage and help -/

/-- How to use the command. -/
def usage : String :=
  "usage: tmlang [-h] [-t TAPE] [--config FILE] [--max-steps N] [--margin N]\n"
    ++ "              [--trace] [--check] [--watch] [--debug]\n"
    ++ "              input\n"

/-- The help text. -/
def help : String :=
  usage
    ++ "\n"
    ++ "Compile and run a Turing machine program\n"
    ++ "\n"
    ++ "positional arguments:\n"
    ++ "  input                 Input .tm file\n"
    ++ "\n"
    ++ "options:\n"
    ++ "  -h, --help            show this help message and exit\n"
    ++ "  -t TAPE, --tape TAPE  Initial tape content (default: empty)\n"
    ++ "  --config FILE         Config file (default: auto-discover tmlang.toml)\n"
    ++ "  --max-steps N         Pause the machine after N steps (default: 10000)\n"
    ++ "  --margin N            Blank cells kept on each side of the tape (default: 2)\n"
    ++ "  --trace               Print every machine event to stderr\n"
    ++ "  --check               Compile only, do not run\n"
    ++ "  --watch               Watch for changes and rerun\n"
    ++ "  --debug               Dump tokens and automaton to stderr\n"

/-- What is printed on wrong arguments. -/
def complaint (error : Error) : String :=
  usage ++ "tmlang: error: " ++ error.message ++ "\n"

end Args

end TapeMachine
