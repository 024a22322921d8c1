import NeonAudit.Report

/-!
# Reports as text

The text of a report grows with the verbosity: first the number of errors alone, then also the files
with what is wrong with them, and from the second level on also the excerpts.
-/

namespace NeonAudit

/-- A text with a line feed after it. -/
def asLine (text : String) : String :=
  text ++ "\n"

/-- The texts one after another. -/
def joinTexts (texts : List String) : String :=
  texts.foldr (· ++ ·) ""

/-- Broken rules under a heading, or nothing if there are none. -/
def rulesText (heading : String) (rules : List String) : String :=
  if rules.isEmpty then ""
  else asLine heading ++ joinTexts (rules.map fun rule => asLine ("- " ++ rule))

/-- A file with the rules that it breaks. -/
def FileViolations.text (file : FileViolations) : String :=
  asLine "" ++ asLine ("File " ++ file.file) ++
    rulesText "contains these disallowed keys:" file.keys ++
    rulesText "contains these disallowed values:" file.values

/-- A file that was not checked. -/
def ParseFailure.skippedText (failure : ParseFailure) : String :=
  asLine "" ++ asLine ("Skipped " ++ failure.file ++ " (does not decode): " ++ failure.message)

/-- The number of errors. -/
def countText (count : Nat) : String :=
  asLine ("Errors found: " ++ toString count)

/-- The text of a check report. -/
def CheckReport.text (verbosity : Nat) (report : CheckReport) : String :=
  if verbosity = 0 then countText report.violationCount
  else
    countText report.violationCount ++ joinTexts (report.files.map FileViolations.text) ++
      joinTexts (report.skipped.map ParseFailure.skippedText)

/-- A text with a line feed after it, unless it ends in one. -/
def closedLine (text : String) : String :=
  if text.toList.getLast? = some '\n' then text else asLine text

/-- What to show under a failure. -/
def ValidateFailure.content : ValidateFailure → String
  | parse failure => asLine "" ++ asLine "Content:" ++ closedLine failure.excerpt
  | nonScalar violation =>
    asLine "" ++ asLine "Content (re-encoded from the decoded value):" ++ asLine violation.value

/-- The path of the file of a failure, with the line if it is known. -/
def ValidateFailure.place (failure : ValidateFailure) : String :=
  match failure.line with
  | some number => failure.file ++ ":" ++ toString number
  | none => failure.file

/-- The text of a failure. -/
def ValidateFailure.text (verbosity : Nat) (failure : ValidateFailure) : String :=
  asLine ("Error: " ++ failure.message) ++ asLine ("File: " ++ failure.place) ++
    (if 2 ≤ verbosity then failure.content else "") ++ asLine ""

/-- The text of a validation report. -/
def ValidateReport.text (verbosity : Nat) (report : ValidateReport) : String :=
  let heading := countText report.failures.length ++ asLine ""
  if verbosity = 0 then heading
  else heading ++ joinTexts (report.failures.map (ValidateFailure.text verbosity))

end NeonAudit
