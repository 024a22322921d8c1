import NeonAudit.Literal
import NeonAudit.Text.Blank
import NeonAudit.Text.Split
import NeonAudit.Value.Path

/-!
# Rules

A key rule names a path that must not exist, and a value rule a path that must not hold a value.
Both are written with colons between the keys, the value as an unquoted literal after the last
colon. Keys are taken as they stand, so that a key with a colon cannot be named.
-/

namespace NeonAudit

/-- Why a text is no rule, or a list of rules is no rule set. -/
inductive RuleError
  /-- There are no rules. -/
  | noRules
  /-- There are no keys. -/
  | emptyPath
  /-- A key of the rule is empty. -/
  | emptySegment (spec : String)
  /-- There is no colon before a value. -/
  | missingPath (spec : String)
  /-- There is no value after the last colon. -/
  | missingLiteral (spec : String)
  /-- The value has a zone that cannot be divided, which no message describes. -/
  | zone (fault : Literal.ZoneFault)
deriving DecidableEq

/-- The statement of the error. -/
def RuleError.message : RuleError → String
  | noRules => "at least one disallowed key or disallowed value must be given"
  | emptyPath => "rule is empty"
  | emptySegment spec => "rule '" ++ spec ++ "' contains an empty key segment"
  | missingPath spec => "value rule '" ++ spec ++ "' has no key path; expected 'key:...:value'"
  | missingLiteral spec => "value rule '" ++ spec ++ "' has no value after the last ':'"
  | zone _ => ""

/-- One or more keys, none of them empty. -/
structure KeyPath where
  /-- The keys from the outermost on. -/
  segments : List String
  /-- There is a key. -/
  ne_nil : segments ≠ []
  /-- No key is empty. -/
  segment_ne_empty : ∀ segment ∈ segments, segment ≠ ""
deriving DecidableEq

namespace KeyPath

/-- The keys with colons between them. -/
def joinSegments (segments : List String) : String :=
  String.ofList ([':'].intercalate (segments.map String.toList))

/-- The path of the keys. -/
def ofSegments (segments : List String) : Except RuleError KeyPath :=
  if hnil : segments = [] then .error .emptyPath
  else if hempty : ∀ segment ∈ segments, segment ≠ "" then .ok ⟨segments, hnil, hempty⟩
  else .error (.emptySegment (joinSegments segments))

/-- The parts of a text between its colons. -/
def segmentsOf (spec : String) : List String :=
  (Text.split ':' spec.toList).map String.ofList

/-- The path that a key rule names. -/
def ofSpec (spec : String) : Except RuleError KeyPath :=
  if spec = "" then .error .emptyPath
  else (ofSegments (segmentsOf spec)).mapError fun _ => .emptySegment spec

/-- The text of a path, which is the key rule that names it. -/
def text (path : KeyPath) : String :=
  joinSegments path.segments

end KeyPath

/-- A path and the value that it must not hold. -/
structure ValueRule where
  /-- Where the value is. -/
  path : KeyPath
  /-- The value. -/
  value : Value
  /-- The rule as it is written. -/
  spec : String

namespace ValueRule

/-- The least tree in which the path holds the value. -/
def fragment (rule : ValueRule) : Value :=
  rule.value.nestAlong rule.path.segments

/-- The value rule that a text spells. The literal is freed from white space around it, and errors
are looked for from the end of the text to its start. -/
def ofSpec (spec : String) : Except RuleError ValueRule :=
  match Text.splitLast? ':' spec.toList with
  | none => .error (.missingPath spec)
  | some (path, literal) =>
    let literal := Text.trimBlank literal
    if literal.isEmpty then .error (.missingLiteral spec)
    else
      match KeyPath.ofSpec (String.ofList path) with
      | .error _ => .error (.emptySegment spec)
      | .ok path =>
        match Value.ofLiteral (String.ofList literal) with
        | .error fault => .error (.zone fault)
        | .ok value => .ok ⟨path, value, spec⟩

end ValueRule

/-- The rules of a run. -/
structure RuleSet where
  /-- The paths that must not exist. -/
  keys : List KeyPath
  /-- The paths with the values that they must not hold. -/
  values : List ValueRule

namespace RuleSet

/-- The rules that the texts spell, of which there must be one at least. -/
def ofSpecs (keys values : List String) : Except RuleError RuleSet :=
  if keys.isEmpty && values.isEmpty then .error .noRules
  else do
    let keys ← keys.mapM KeyPath.ofSpec
    let values ← values.mapM ValueRule.ofSpec
    return ⟨keys, values⟩

/-- The number of rules. -/
def size (rules : RuleSet) : Nat :=
  rules.keys.length + rules.values.length

end RuleSet

end NeonAudit
