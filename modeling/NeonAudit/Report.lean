import NeonAudit.Excerpt
import NeonAudit.Location
import NeonAudit.Value

/-!
# Reports

A check of rules reports which rules each file breaks, and a validation reports what is wrong with
each file. Files appear in the order in which they were found. A failure to decode carries its
message, the location that the message names, and an excerpt of the source around it.
-/

namespace NeonAudit

/-- The kinds of rules. -/
inductive RuleKind
  | key
  | value
deriving DecidableEq

/-- The name of a kind of rule. -/
def RuleKind.text : RuleKind → String
  | key => "key"
  | value => "value"

/-- A rule that a file breaks. -/
structure Violation where
  /-- The path of the file. -/
  file : String
  /-- The kind of the rule. -/
  kind : RuleKind
  /-- The rule as it is written. -/
  rule : String
deriving DecidableEq

/-- The rules that a file breaks, in the order of the rule set. -/
structure FileViolations where
  /-- The path of the file. -/
  file : String
  /-- The key rules. -/
  keys : List String
  /-- The value rules. -/
  values : List String
deriving DecidableEq

namespace FileViolations

/-- The number of rules that the file breaks. -/
def count (file : FileViolations) : Nat :=
  file.keys.length + file.values.length

/-- The number of rules that files break, counted once for each file. -/
def countAll : List FileViolations → Nat
  | [] => 0
  | file :: files => file.count + countAll files

/-- The rules that the file breaks one by one. -/
def violations (file : FileViolations) : List Violation :=
  file.keys.map (⟨file.file, .key, ·⟩) ++ file.values.map (⟨file.file, .value, ·⟩)

/-- No rule is lost or counted twice. -/
theorem length_violations (file : FileViolations) : file.violations.length = file.count := by
  simp [violations, count]

end FileViolations

/-- A file that does not decode. -/
structure ParseFailure where
  /-- The path of the file. -/
  file : String
  /-- What is wrong. -/
  message : String
  /-- The location that the message names. -/
  location : Location
  /-- The part of the source to show. -/
  excerpt : String
  /-- The source. -/
  source : String
deriving DecidableEq

/-- The failure with the given message. The excerpt is around the line that the message names, and
the whole source if it names none. -/
def ParseFailure.ofMessage (file message source : String) : ParseFailure :=
  let location := Location.ofMessage message
  let excerpt :=
    match location.line with
    | some line => String.ofList (Excerpt.around source.toList line)
    | none => source
  ⟨file, message, location, excerpt, source⟩

/-- The result of checking rules. -/
structure CheckReport where
  /-- How many files were checked against the rules. -/
  filesChecked : Nat
  /-- How many rules are broken, counted once for each file. -/
  violationCount : Nat
  /-- The files that break rules. -/
  files : List FileViolations
  /-- The files that do not decode. -/
  skipped : List ParseFailure
deriving DecidableEq

/-- The broken rules of all files one by one. -/
def CheckReport.violations (report : CheckReport) : List Violation :=
  report.files.flatMap FileViolations.violations

/-- A leaf that is an object. -/
structure ScalarViolation where
  /-- The path of the file. -/
  file : String
  /-- The name of the leaf. -/
  key : String
  /-- The spelling of the leaf. -/
  value : String
deriving DecidableEq

/-- What is wrong with the leaf. -/
def ScalarViolation.message (violation : ScalarViolation) : String :=
  "Value for key " ++ violation.key ++
    " is parsed as object (probably contains `()` or it is datetime)"

/-- Something that is wrong with a file. -/
inductive ValidateFailure
  /-- The file does not decode. -/
  | parse (failure : ParseFailure)
  /-- A leaf of the file is an object. -/
  | nonScalar (violation : ScalarViolation)
deriving DecidableEq

namespace ValidateFailure

/-- The path of the file. -/
def file : ValidateFailure → String
  | parse failure => failure.file
  | nonScalar violation => violation.file

/-- What is wrong. -/
def message : ValidateFailure → String
  | parse failure => failure.message
  | nonScalar violation => violation.message

/-- The line of the failure, if it is known. -/
def line : ValidateFailure → Option Nat
  | parse failure => failure.location.line
  | nonScalar _ => none

end ValidateFailure

/-- The result of a validation. -/
structure ValidateReport where
  /-- How many files were read. -/
  filesChecked : Nat
  /-- What is wrong with them. -/
  failures : List ValidateFailure
deriving DecidableEq

end NeonAudit
