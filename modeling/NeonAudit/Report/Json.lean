import NeonAudit.Json
import NeonAudit.Report

/-!
# Reports as JSON

The members of an object stand in the order of the parts of a report. The source of a failure is
left out.
-/

namespace NeonAudit

/-- A list of texts. -/
def Json.strings (texts : List String) : Json :=
  .array (texts.map Json.string)

/-- A broken rule as JSON. -/
def Violation.json (violation : Violation) : Json :=
  .object [("file", .string violation.file), ("kind", .string violation.kind.text),
    ("rule", .string violation.rule)]

/-- The broken rules of a file as JSON. -/
def FileViolations.json (file : FileViolations) : Json :=
  .object [("file", .string file.file), ("keys", .strings file.keys),
    ("values", .strings file.values)]

/-- The members for a file that does not decode. -/
def ParseFailure.members (failure : ParseFailure) : List (String × Json) :=
  [("file", .string failure.file), ("message", .string failure.message),
    ("line", .ofOption failure.location.line), ("column", .ofOption failure.location.column),
    ("excerpt", .string failure.excerpt)]

/-- A check report as JSON. -/
def CheckReport.json (report : CheckReport) : Json :=
  .object [("files_checked", .number report.filesChecked),
    ("violation_count", .number report.violationCount),
    ("files", .array (report.files.map FileViolations.json)),
    ("skipped", .array (report.skipped.map fun failure => .object failure.members))]

/-- A failure as JSON. -/
def ValidateFailure.json : ValidateFailure → Json
  | parse failure => .object (("type", .string "parse") :: failure.members)
  | nonScalar violation =>
    .object [("type", .string "non_scalar"), ("file", .string violation.file),
      ("key", .string violation.key), ("value", .string violation.value)]

/-- A validation report as JSON. -/
def ValidateReport.json (report : ValidateReport) : Json :=
  .object [("files_checked", .number report.filesChecked),
    ("failures", .array (report.failures.map ValidateFailure.json))]

end NeonAudit
