import NeonAudit.Audit.Validate
import NeonAudit.Config.Setting

/-!
# Configurations

A configuration file can name the roots of a run, its rules, and how strict a validation is. What it
does not set is left to the command line, or to the defaults. Roots that are found beside the file
are meant to be there, and all others are taken as they are written.
-/

namespace NeonAudit

/-- The settings of a run. -/
structure Config where
  /-- The roots. -/
  roots : List String
  /-- The key rules. -/
  keys : List String
  /-- The value rules. -/
  values : List String
  /-- How strict a validation is, if that is set. -/
  mode : Option ValidateMode
deriving DecidableEq

/-- Why there is no configuration. -/
inductive Config.Failure
  /-- The file cannot be read as text. -/
  | unreadable (path : String)
  /-- The file does not spell a configuration. -/
  | malformed (path : String)
deriving DecidableEq

namespace Config

/-- The statement of the failure. -/
def Failure.message : Failure → String
  | unreadable path => "failed to read config file " ++ path
  | malformed path => "failed to parse config file " ++ path

/-- The configuration that sets nothing. -/
def default : Config :=
  ⟨[], [], [], none⟩

/-- The names that can be set. -/
def names : List String :=
  ["dirs", "disallowed_keys", "disallowed_values", "validate_type"]

/-- The texts that a setting is a list of. A setting without content is an empty list. -/
def Setting.texts? : Setting → Option (List String)
  | list items => some items
  | scalar text plain => if plain && text.isEmpty then some [] else none

/-- The plain scalars that stand for nothing. -/
def nullTexts : List String :=
  ["", "~", "null", "Null", "NULL"]

/-- The mode that a setting names, if it names one. -/
def Setting.mode? : Setting → Option (Option ValidateMode)
  | list _ => none
  | scalar text plain =>
    if plain && nullTexts.contains text then some none
    else (ValidateMode.ofText? text).map some

/-- The texts that a name is set to. -/
def textsOf? (settings : List (String × Setting)) (name : String) : Option (List String) :=
  match Entries.get? settings name with
  | none => some []
  | some setting => setting.texts?

/-- The mode that a name is set to. -/
def modeOf? (settings : List (String × Setting)) (name : String) :
    Option (Option ValidateMode) :=
  match Entries.get? settings name with
  | none => some none
  | some setting => setting.mode?

/-- The configuration of settings, none of which may have an unknown or repeated name. -/
def ofSettings? (settings : List (String × Setting)) : Option Config := do
  guard ((Entries.keys settings).all names.contains ∧ (Entries.keys settings).Nodup)
  let roots ← textsOf? settings "dirs"
  let keys ← textsOf? settings "disallowed_keys"
  let values ← textsOf? settings "disallowed_values"
  let mode ← modeOf? settings "validate_type"
  return ⟨roots, keys, values, mode⟩

/-- The configuration that a text spells. -/
def ofSource? (source : List Char) : Option Config :=
  (settings source).bind ofSettings?

end Config

/-- The path from the current directory for a path that may be meant from a base. -/
def FileTree.resolve (tree : FileTree) (base path : String) : String :=
  if Path.isAbsolute path then path
  else
    let based := Path.join base path
    if tree.hasEntry based then based else path

namespace Config

/-- The configuration with its roots resolved from a base. -/
def resolveRoots (config : Config) (tree : FileTree) (base : String) : Config :=
  { config with roots := config.roots.map (tree.resolve base) }

/-- The configuration of the file at a path. -/
def load (tree : FileTree) (path : String) : Except Failure Config :=
  match tree.read path with
  | .error _ => .error (.unreadable path)
  | .ok bytes =>
    match Text.ofUtf8? bytes with
    | none => .error (.unreadable path)
    | some source =>
      match ofSource? source with
      | none => .error (.malformed path)
      | some config => .ok (config.resolveRoots tree ((Path.parent? path).getD "."))

/-- The configuration of the file at a path, or the default one if there is no path. -/
def loadOrDefault (tree : FileTree) : (path : Option String) → Except Failure Config
  | none => .ok default
  | some path => load tree path

/-- The given roots, or those of the configuration if none are given. -/
def rootsOr (config : Config) (given : List String) : List String :=
  if given.isEmpty then config.roots else given

end Config

end NeonAudit
