import TapeMachine.Command.Args
import TapeMachine.Files.Basic
import TapeMachine.Tape.Basic
import TapeMachine.Toml.Document

/-!
# TapeMachine.Command.Options

The settings of one use of the command.

A setting comes from the arguments, or else from the configuration file, or else has a default. In
the configuration file a setting of the wrong type counts as missing.

* `Options.configPath` — where the configuration is looked for.
* `Options.resolve` — settings from arguments and configuration.
* `Options.load` — the same, with the configuration read from its file.

Design points:

* A truth value in the configuration counts as the number one or zero. An `Amount` remembers that
  it was one, since it is shown as it was given.
* An argument that was given nothing still wins over the configuration. The tape is then empty, but
  a number has to be given; for the configuration file it is as if there was no argument.
-/

namespace TapeMachine

/-- A whole number as it was given. -/
inductive Amount where
  /-- A number. -/
  | number (value : Int)
  /-- A truth value that stands for one or zero. -/
  | truth (value : Bool)
deriving Repr, DecidableEq

namespace Amount

/-- The number that is meant. -/
def value : Amount → Int
  | .number value => value
  | .truth true => 1
  | .truth false => 0

/-- An amount as it is shown. -/
def text : Amount → String
  | .number value => toString value
  | .truth true => "True"
  | .truth false => "False"

/-- The amount that a value of the configuration stands for. -/
def ofValue? : Toml.Value → Option Amount
  | .integer value => some (.number value)
  | .boolean value => some (.truth value)
  | _ => none

end Amount

/-- Settings that make no sense. -/
inductive SettingError where
  /-- The margin is below one. -/
  | thinMargin (margin : Amount)
  /-- The step limit is below one. -/
  | noSteps (limit : Amount)
deriving Repr, DecidableEq

/-- The text of an error. -/
def SettingError.message : SettingError → String
  | .thinMargin margin => "margin must be at least 1, got " ++ margin.text
  | .noSteps limit => "max steps must be at least 1, got " ++ limit.text

/-- The settings of one use of the command. -/
structure Options where
  /-- The program. -/
  input : Path
  /-- The content of the tape; nothing is as good as an empty text. -/
  tape : Given String
  /-- The margin of the tape. -/
  margin : Amount
  /-- The most steps of a run. -/
  maxSteps : Amount
  /-- Whether to tell of every event. -/
  trace : Bool
  /-- Whether to compile only. -/
  check : Bool
  /-- Whether to run again whenever the program changes. -/
  watch : Bool
  /-- Whether to list tokens and automaton. -/
  debug : Bool
deriving Repr, DecidableEq

namespace Options

/-- The most steps of a run, unless the limit is set. -/
def defaultMaxSteps : Int := 10000

/-- The name of the configuration file that is looked for beside the program. -/
def configName : String := "tmlang.toml"

/-- The content of the tape as a text. -/
def content (options : Options) : Text :=
  match options.tape with
  | .value text => text.toList
  | .nothing => []

/-- The configuration file beside a program. -/
def configBeside (input : String) : Path :=
  (Path.ofString input).parent.child configName

/-- Where the configuration is looked for: at the path that was given, if that is not empty, or else
beside the program. -/
def configPath (args : Args) : Path :=
  match args.config with
  | some (.value config) => if config == "" then configBeside args.input else Path.ofString config
  | _ => configBeside args.input

/-- The entries of a section of the configuration. -/
def entriesOf (config : Toml.Tree) (name : String) : Toml.Tree :=
  ((config.lookup name).map Toml.Value.entries).getD []

/-- A text of a section. -/
def string? (entries : Toml.Tree) (name : String) : Option String :=
  match entries.lookup name with
  | some (.string text) => some text
  | _ => none

/-- An amount of a section. -/
def amount? (entries : Toml.Tree) (name : String) : Option Amount :=
  (entries.lookup name).bind Amount.ofValue?

/-- Why there are no settings. -/
inductive Error where
  /-- The configuration file cannot be read. -/
  | file (error : FileError)
  /-- The configuration file is no UTF-8. -/
  | notText
  /-- The configuration file is no configuration. -/
  | config (error : Toml.Error)
  /-- An option that takes a number was given nothing. -/
  | noNumber
  /-- The settings make no sense. -/
  | setting (error : SettingError)
deriving Repr, DecidableEq

/-- An amount, if it is at least one. -/
def positive (refusal : Amount → SettingError) (amount : Amount) : Except Error Amount :=
  if amount.value < 1 then .error (.setting (refusal amount)) else .ok amount

/-- The amount of a setting, which has to be at least one: that of the argument, or else that of the
configuration, or else a default. -/
def choose (refusal : Amount → SettingError) (argument : Option (Given Int))
    (configured : Option Amount) (fallback : Int) : Except Error Amount :=
  match argument with
  | some .nothing => .error .noNumber
  | some (.value number) => positive refusal (.number number)
  | none => positive refusal (configured.getD (.number fallback))

/-- The settings that some arguments and a configuration make. The margin is checked before the
step limit. -/
def resolve (args : Args) (config : Toml.Tree) : Except Error Options := do
  let onTape := entriesOf config "tape"
  let onRun := entriesOf config "run"
  let margin ← choose .thinMargin args.margin (amount? onTape "margin") Margin.default.width
  let maxSteps ← choose .noSteps args.maxSteps (amount? onRun "max_steps") defaultMaxSteps
  return {
    input := Path.ofString args.input
    tape := args.tape.getD (.value ((string? onTape "input").getD ""))
    margin, maxSteps
    trace := args.trace
    check := args.check
    watch := args.watch
    debug := args.debug }

/-- The configuration; without a file it is empty. -/
def readConfig (files : Files) (args : Args) : Except Error Toml.Tree :=
  match files.isFile (configPath args) with
  | .error error => .error (.file error)
  | .ok false => .ok []
  | .ok true =>
    match files.rawText (configPath args) with
    | .error (.file error) => .error (.file error)
    | .error .notText => .error .notText
    | .ok text =>
      match Toml.parse text with
      | .ok config => .ok config
      | .error error => .error (.config error)

/-- The settings that some arguments and the configuration file make. -/
def load (files : Files) (args : Args) : Except Error Options := do
  resolve args (← readConfig files args)

/-! ### Settings make sense -/

theorem positive_value {refusal : Amount → SettingError} {amount chosen : Amount}
    (h : positive refusal amount = .ok chosen) : 1 ≤ chosen.value := by
  unfold positive at h
  split at h
  · simp at h
  · obtain rfl := Except.ok.inj h
    omega

/-- An amount that was chosen is at least one. -/
theorem choose_value {refusal : Amount → SettingError} {argument : Option (Given Int)}
    {configured : Option Amount} {fallback : Int} {chosen : Amount}
    (h : choose refusal argument configured fallback = .ok chosen) : 1 ≤ chosen.value := by
  unfold choose at h
  split at h
  · simp at h
  · exact positive_value h
  · exact positive_value h

/-- Settings are made of two amounts that were chosen. -/
theorem resolve_amounts {args : Args} {config : Toml.Tree} {options : Options}
    (h : resolve args config = .ok options) :
    choose .thinMargin args.margin (amount? (entriesOf config "tape") "margin")
        Margin.default.width = .ok options.margin ∧
      choose .noSteps args.maxSteps (amount? (entriesOf config "run") "max_steps")
        defaultMaxSteps = .ok options.maxSteps := by
  simp only [resolve, bind, Except.bind] at h
  split at h
  · simp at h
  · next margin hmargin =>
    split at h
    · simp at h
    · next maxSteps hsteps =>
      obtain rfl := Except.ok.inj h
      exact ⟨hmargin, hsteps⟩

/-- The margin of settings is at least one. -/
theorem resolve_margin {args : Args} {config : Toml.Tree} {options : Options}
    (h : resolve args config = .ok options) : 1 ≤ options.margin.value :=
  choose_value (resolve_amounts h).1

/-- The step limit of settings is at least one. -/
theorem resolve_maxSteps {args : Args} {config : Toml.Tree} {options : Options}
    (h : resolve args config = .ok options) : 1 ≤ options.maxSteps.value :=
  choose_value (resolve_amounts h).2

end Options

end TapeMachine
