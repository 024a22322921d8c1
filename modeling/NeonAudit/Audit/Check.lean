import NeonAudit.Audit.Source
import NeonAudit.FileTree.Discovery
import NeonAudit.Rule.Containment

/-!
# Checking rules

A check looks for every rule in every document below its roots, all of which must be directories. A
document is either checked, or skipped because it does not decode, or empty and then left out. The
report is made of what happened to the documents one by one, in the order in which they were found.
-/

namespace NeonAudit

/-- Whether a tree breaks a key rule. -/
def KeyPath.isBroken (path : KeyPath) (tree : Value) : Bool :=
  tree.hasPath path.segments

/-- Whether a tree breaks a value rule. -/
def ValueRule.isBroken (rule : ValueRule) (tree : Value) : Bool :=
  tree.contains rule.fragment

/-- The rules that the tree of a file breaks. -/
def RuleSet.check (rules : RuleSet) (file : String) (tree : Value) : FileViolations where
  file := file
  keys := (rules.keys.filter (·.isBroken tree)).map KeyPath.text
  values := (rules.values.filter (·.isBroken tree)).map ValueRule.spec

/-- What a check makes of a document. -/
inductive CheckOutcome
  /-- The rules that the document breaks. -/
  | checked (found : FileViolations)
  /-- The document does not decode. -/
  | skipped (failure : ParseFailure)
  /-- The document is empty. -/
  | empty

namespace CheckOutcome

/-- The rules that a checked document breaks. -/
def found? : CheckOutcome → Option FileViolations
  | checked found => some found
  | skipped _ => none
  | empty => none

/-- The failure of a skipped document. -/
def failure? : CheckOutcome → Option ParseFailure
  | checked _ => none
  | skipped failure => some failure
  | empty => none

end CheckOutcome

/-- The report on documents of which it is known what a check makes of them. -/
def CheckReport.ofOutcomes (outcomes : List CheckOutcome) : CheckReport :=
  let found := outcomes.filterMap CheckOutcome.found?
  { filesChecked := found.length
    violationCount := FileViolations.countAll found
    files := found.filter fun file => 0 < file.count
    skipped := outcomes.filterMap CheckOutcome.failure? }

namespace RuleSet

/-- What a check makes of the source of a document. -/
def checkSource (rules : RuleSet) (file source : String) : Except RunError CheckOutcome :=
  if source.isEmpty then .ok .empty
  else
    match decodeSource file source with
    | .error error => .error error
    | .ok (.error failure) => .ok (.skipped failure)
    | .ok (.ok value) => .ok (.checked (rules.check file value))

/-- What a check makes of the document at a path. -/
def checkFile (rules : RuleSet) (tree : FileTree) (path : String) :
    Except RunError CheckOutcome :=
  match tree.source path with
  | .error error => .error error
  | .ok (.error failure) => .ok (.skipped failure)
  | .ok (.ok source) => rules.checkSource path source

/-- Checks the documents below roots. -/
def run (rules : RuleSet) (tree : FileTree) (roots : List String) : Except RunError CheckReport :=
  match roots.find? fun root => !tree.isDirectory root with
  | some root => .error (.missingDirectory root)
  | none => ((tree.documents roots).mapM (rules.checkFile tree)).map CheckReport.ofOutcomes

end RuleSet

/-- Checks the documents below roots against the rules that texts spell. -/
def checkSpecs (tree : FileTree) (roots keys values : List String) :
    Except RunError CheckReport :=
  match RuleSet.ofSpecs keys values with
  | .error (.zone fault) => .error (.fault (.zone fault))
  | .error error => .error (.rule error)
  | .ok rules => rules.run tree roots

end NeonAudit
