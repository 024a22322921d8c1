import NeonAudit.Audit.Validate

/-!
# Options of the command line

The command line names an action after which its roots and options stand in any order. The options
on the verbosity, the configuration and the format can also stand before the action. Options that
take a value take it after an equals sign or from the next argument, which then must not look like
an option. A lone pair of dashes ends the options. What is wrong first decides; nothing after a
request for help or for the version is looked at.
-/

namespace NeonAudit.Command

/-- What can be done with documents. -/
inductive Action
  /-- Check rules. -/
  | disallowed
  /-- Validate documents. -/
  | validate
deriving DecidableEq

/-- The action of the given name. -/
def Action.ofName? (name : String) : Option Action :=
  if name = "disallowed" then some .disallowed
  else if name = "validate" ∨ name = "check" then some .validate
  else none

/-- Why there is nothing to do. -/
inductive Exit
  /-- The arguments are not understood. -/
  | invalid
  /-- The version is asked for. -/
  | version
  /-- Help is asked for. -/
  | help
deriving DecidableEq

/-- The options that have been read. -/
structure Options where
  /-- How often more output is asked for, if it is at all. -/
  verbosity : Option Nat
  /-- The path of the configuration. -/
  config : Option String
  /-- Whether the report is to be JSON. -/
  json : Bool
  /-- How strict a validation is to be. -/
  mode : Option ValidateMode
  /-- The key rules. -/
  keys : List String
  /-- The value rules. -/
  values : List String
  /-- The roots. -/
  roots : List String
deriving DecidableEq

namespace Options

/-- No options. -/
def empty : Options :=
  ⟨none, none, false, none, [], [], []⟩

/-- The options after one without a value, given the action before it. Only the format can be asked
for only once. -/
def readFlag (action : Option Action) (options : Options) (name : String) : Except Exit Options :=
  if name = "verbose" then .ok { options with verbosity := some (options.verbosity.getD 0 + 1) }
  else if name = "json" then
    if options.json then .error .invalid else .ok { options with json := true }
  else if name = "help" then .error .help
  else if name = "version" ∧ action.isNone then .error .version
  else .error .invalid

/-- The name of the option that a letter stands for. -/
def nameOfLetter? : Char → Option String
  | 'v' => some "verbose"
  | 'h' => some "help"
  | 'V' => some "version"
  | _ => none

/-- The options after letters that stand for options. -/
def readLetters (action : Option Action) (options : Options) : List Char → Except Exit Options
  | [] => .ok options
  | letter :: letters =>
    match nameOfLetter? letter with
    | none => .error .invalid
    | some name =>
      match readFlag action options name with
      | .error exit => .error exit
      | .ok options => readLetters action options letters

/-- The names of the options that take values, given the action before them. -/
def valued : Option Action → List String
  | none => ["config"]
  | some .disallowed => ["config", "disallowed-keys", "disallowed-values"]
  | some .validate => ["config", "type"]

/-- The options after one with a value. Rules can be given more than once. -/
def readValue (options : Options) (name value : String) : Except Exit Options :=
  if name = "config" then
    if options.config.isSome || value.isEmpty then .error .invalid
    else .ok { options with config := some value }
  else if name = "disallowed-keys" then .ok { options with keys := options.keys ++ [value] }
  else if name = "disallowed-values" then .ok { options with values := options.values ++ [value] }
  else if name = "type" then
    match options.mode, ValidateMode.ofText? value with
    | none, some mode => .ok { options with mode := some mode }
    | _, _ => .error .invalid
  else .error .invalid

/-- The options after a root. -/
def readRoot (options : Options) (root : String) : Except Exit Options :=
  if root.isEmpty then .error .invalid else .ok { options with roots := options.roots ++ [root] }

/-- The options after roots. -/
def readRoots (options : Options) : List String → Except Exit Options
  | [] => .ok options
  | root :: roots =>
    match readRoot options root with
    | .error exit => .error exit
    | .ok options => readRoots options roots

end Options

/-- What an argument looks like. -/
inductive Argument
  /-- The end of the options. -/
  | endOfOptions
  /-- The name of an option, and a value if there is an equals sign. -/
  | long (name : String) (value : Option String)
  /-- Letters that stand for options. -/
  | letters (letters : List Char)
  /-- Anything else. -/
  | operand (text : String)
deriving DecidableEq

/-- What a text looks like as an argument. -/
def Argument.ofText (text : String) : Argument :=
  match text.toList with
  | ['-', '-'] => endOfOptions
  | '-' :: '-' :: rest =>
    let name := String.ofList (rest.takeWhile (· != '='))
    match rest.dropWhile (· != '=') with
    | [] => long name none
    | _ :: value => long name (some (String.ofList value))
  | '-' :: letter :: rest => letters (letter :: rest)
  | _ => operand text

/-- Reads the options before an action up to the first operand, which is left with all after it, or
those after an action up to the end. -/
def readOptions (action : Option Action) :
    Options → List String → Except Exit (Options × List String)
  | options, [] => .ok (options, [])
  | options, text :: rest =>
    match Argument.ofText text with
    | .endOfOptions =>
      if action.isNone then .error .invalid
      else (options.readRoots rest).map (·, [])
    | .long name (some value) =>
      if name ∈ Options.valued action then
        match options.readValue name value with
        | .error exit => .error exit
        | .ok options => readOptions action options rest
      else .error .invalid
    | .long name none =>
      if name ∈ Options.valued action then
        match rest with
        | [] => .error .invalid
        | value :: rest =>
          match Argument.ofText value with
          | .operand _ =>
            match options.readValue name value with
            | .error exit => .error exit
            | .ok options => readOptions action options rest
          | _ => .error .invalid
      else
        match options.readFlag action name with
        | .error exit => .error exit
        | .ok options => readOptions action options rest
    | .letters letters =>
      match options.readLetters action letters with
      | .error exit => .error exit
      | .ok options => readOptions action options rest
    | .operand root =>
      if action.isNone then .ok (options, text :: rest)
      else
        match options.readRoot root with
        | .error exit => .error exit
        | .ok options => readOptions action options rest

/-- An action with its options. -/
structure Request where
  /-- What is to be done. -/
  action : Action
  /-- The options on it. -/
  options : Options
deriving DecidableEq

/-- Why a request for help on the given actions is all there is to do. -/
def Exit.ofHelp : (topics : List String) → Exit
  | [] => help
  | [topic] => if topic = "help" || (Action.ofName? topic).isSome then help else invalid
  | _ => invalid

/-- The options before an action and those after it together. -/
def Options.merge (before after : Options) : Options :=
  { after with
    verbosity := after.verbosity.or before.verbosity
    config := after.config.or before.config
    json := after.json || before.json }

/-- The request that arguments make. -/
def Request.ofArguments (arguments : List String) : Except Exit Request :=
  match readOptions none .empty arguments with
  | .error exit => .error exit
  | .ok (_, []) => .error .invalid
  | .ok (before, name :: rest) =>
    match Action.ofName? name with
    | none => .error (if name = "help" then .ofHelp rest else .invalid)
    | some action =>
      match readOptions (some action) .empty rest with
      | .error exit => .error exit
      | .ok (after, _) => .ok ⟨action, before.merge after⟩

end NeonAudit.Command
