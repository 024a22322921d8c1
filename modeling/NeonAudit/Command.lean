import NeonAudit.Audit.Check
import NeonAudit.Command.Options
import NeonAudit.Config
import NeonAudit.Report.Json
import NeonAudit.Report.Text

/-!
# The command

An action is done on a file tree with the options of the command line and the settings of the
configuration. Roots on the command line replace those of the configuration, rules are added to its
rules, and a mode replaces its mode. The exit code is the number of errors found, as far as codes
go; one stands also for a run without a report, and two for arguments that are not understood.
-/

namespace NeonAudit.Command

/-- Why an action ends without a report. -/
inductive Failure
  /-- There is no configuration. -/
  | config (failure : Config.Failure)
  /-- There are no roots. -/
  | noRoots
  /-- There are no rules. -/
  | rules (error : RuleError)
  /-- The check ended. -/
  | check (error : RunError)
  /-- The validation ended. -/
  | validate (error : RunError)
deriving DecidableEq

namespace Failure

/-- The statement of the failure. -/
def message : Failure → String
  | config failure => failure.message
  | noRoots => "no directories to check; pass DIR arguments or set `dirs` in the config file"
  | rules error => "set up --disallowed-keys and/or --disallowed-values first: " ++ error.message
  | check error => "rule check failed: " ++ error.message
  | validate error => "validation failed: " ++ error.message

/-- What broke the action off, if that is how it ended. -/
def fault? : Failure → Option DecodeFault
  | rules (.zone fault) => some (.zone fault)
  | check (.fault fault) => some fault
  | check (.rule (.zone fault)) => some (.zone fault)
  | validate (.fault fault) => some fault
  | _ => none

end Failure

/-- How a report is to be shown. -/
structure Style where
  /-- How much is shown in a text. -/
  verbosity : Nat
  /-- Whether JSON is shown and no text. -/
  json : Bool
deriving DecidableEq

/-- The output for a report that is JSON or a text. -/
def Style.output (style : Style) (json : Json) (text : Nat → String) : String :=
  if style.json then asLine (String.ofList json.text) else text style.verbosity

/-- The largest exit code. -/
def maxExitCode : Nat :=
  255

/-- The exit code for a number of errors. -/
def exitCode (count : Nat) : Nat :=
  min count maxExitCode

/-- What a command leaves behind. -/
structure Completion where
  /-- The exit code. -/
  code : Nat
  /-- The output. -/
  output : String
  /-- What is said apart from the output. -/
  complaint : String
deriving DecidableEq

/-- Checks the rules of the configuration and the given ones. -/
def check (tree : FileTree) (config : Config) (roots keys values : List String) :
    Except Failure CheckReport :=
  let roots := config.rootsOr roots
  if roots.isEmpty then .error .noRoots
  else
    match RuleSet.ofSpecs (config.keys ++ keys) (config.values ++ values) with
    | .error error => .error (.rules error)
    | .ok rules => (rules.run tree roots).mapError .check

/-- Validates documents by the given mode or that of the configuration. -/
def validate (tree : FileTree) (config : Config) (roots : List String)
    (mode : Option ValidateMode) : Except Failure ValidateReport :=
  let mode := (mode.or config.mode).getD .normal
  (mode.run tree (config.rootsOr roots)).mapError .validate

/-- What a check report leaves behind. -/
def Completion.ofCheck (style : Style) (report : CheckReport) : Completion :=
  ⟨exitCode report.violationCount, style.output report.json report.text, ""⟩

/-- What a validation report leaves behind. -/
def Completion.ofValidate (style : Style) (report : ValidateReport) : Completion :=
  ⟨exitCode report.failures.length, style.output report.json report.text, ""⟩

/-- Does what a request asks for. -/
def Request.run (request : Request) (tree : FileTree) : Except Failure Completion :=
  let options := request.options
  let style := ⟨options.verbosity.getD 0, options.json⟩
  match Config.loadOrDefault tree options.config with
  | .error failure => .error (.config failure)
  | .ok config =>
    match request.action with
    | .disallowed =>
      (check tree config options.roots options.keys options.values).map (.ofCheck style)
    | .validate => (validate tree config options.roots options.mode).map (.ofValidate style)

/-- The text for a request for the version. -/
def versionText : String :=
  asLine "neon-checker 0.1.0"

/-- The text for a request for help. -/
def helpText : String :=
  joinTexts ([
    "Validate and audit NEON configuration files",
    "",
    "Usage: neon-checker [OPTIONS] <COMMAND>",
    "",
    "Commands:",
    "  disallowed  Find disallowed keys and values in all *.neon files",
    "  validate    Decode all *.neon files and print the ones that fail [alias: check]",
    "",
    "Options:",
    "  -v, --verbose          Show more; repeat to show still more",
    "      --config <CONFIG>  Path to a YAML configuration file",
    "      --json             Print the report as JSON",
    "  -h, --help             Print help",
    "  -V, --version          Print version"].map asLine)

/-- What is left behind if there is nothing to do. -/
def Completion.ofExit : Exit → Completion
  | .invalid => ⟨2, "", asLine "error: the arguments are not understood; see --help"⟩
  | .version => ⟨0, versionText, ""⟩
  | .help => ⟨0, helpText, ""⟩

/-- What is left behind by an action that ends without a report. The code for one that is broken off
is that of an aborted program. -/
def Completion.ofFailure (failure : Failure) : Completion :=
  ⟨if failure.fault?.isSome then 101 else 1, "", asLine ("error: " ++ failure.message)⟩

/-- Does what arguments ask for. -/
def run (tree : FileTree) (arguments : List String) : Completion :=
  match Request.ofArguments arguments with
  | .error exit => .ofExit exit
  | .ok request =>
    match request.run tree with
    | .error failure => .ofFailure failure
    | .ok completion => completion

end NeonAudit.Command
