import Mathlib.Algebra.GroupWithZero.Nat
import Mathlib.Data.List.ProdSigma
import NeonAudit.Command
import NeonAudit.Proofs.Audit.Outcome

/-!
# What a check counts

A rule that is broken in a document is one violation, and a rule that is given twice counts twice.
The report of a check lists the violations document by document, those of key rules first, and its
count is that of all pairs of a document and a rule that is broken there. The command shows that
count at the start of its output, and ends with it as far as exit codes go.
-/

namespace NeonAudit

/-- A rule of either kind. -/
inductive Rule
  | key (path : KeyPath)
  | value (rule : ValueRule)

namespace Rule

/-- Whether a tree breaks the rule. -/
def isBroken : Rule → Value → Bool
  | key path, tree => path.isBroken tree
  | value rule, tree => rule.isBroken tree

/-- The violation of the rule by a file. -/
def violation (file : String) : Rule → Violation
  | key path => ⟨file, .key, path.text⟩
  | value rule => ⟨file, .value, rule.spec⟩

end Rule

/-- The rules of a set, as often as they are given. -/
def RuleSet.all (rules : RuleSet) : List Rule :=
  rules.keys.map .key ++ rules.values.map .value

/-- Whether the file at a path has a value that breaks a rule. -/
def FileTree.breaks (tree : FileTree) (path : String) (rule : Rule) : Bool :=
  (tree.value? path).any rule.isBroken

namespace CheckReport

/-- A report accounts for documents if its numbers and lists are those of the documents and of the
rules that are broken in them. -/
structure Accounts (report : CheckReport) (rules : RuleSet) (tree : FileTree)
    (paths : List String) : Prop where
  /-- The count is that of the pairs of a document and a rule that is broken there. -/
  count : report.violationCount =
    (paths ×ˢ rules.all).countP fun pair => tree.breaks pair.1 pair.2
  /-- These pairs are the violations one by one. -/
  violations : report.violations =
    ((paths ×ˢ rules.all).filter fun pair => tree.breaks pair.1 pair.2).map fun pair =>
      pair.2.violation pair.1
  /-- The count is the length of that list. -/
  length_violations : report.violations.length = report.violationCount
  /-- The count is the sum over the files of the report. -/
  sum_files : (report.files.map fun file => file.keys.length + file.values.length).sum =
    report.violationCount
  /-- No file of the report is without a violation. -/
  files_ne_nil : ∀ file ∈ report.files, ¬(file.keys = [] ∧ file.values = [])
  /-- The files of the report stand in the order of the documents. -/
  files : report.files.map FileViolations.file = paths.filter fun path =>
    rules.all.any (tree.breaks path)
  /-- The documents that were skipped stand in the order of the documents. -/
  skipped : report.skipped.map ParseFailure.file = paths.filter tree.isUndecodable
  /-- The documents that were checked are those that have a value. -/
  filesChecked : report.filesChecked = paths.countP fun path => (tree.value? path).isSome
  /-- Every document was checked, or skipped, or is empty. -/
  covered : ∀ path ∈ paths, (tree.value? path).isSome = true ∨
    path ∈ report.skipped.map ParseFailure.file ∨ tree.isEmptyFile path = true
  /-- No document is two of these. -/
  separate : ∀ path ∈ paths,
    ¬((tree.value? path).isSome = true ∧ path ∈ report.skipped.map ParseFailure.file) ∧
      ¬((tree.value? path).isSome = true ∧ tree.isEmptyFile path = true) ∧
        ¬(path ∈ report.skipped.map ParseFailure.file ∧ tree.isEmptyFile path = true)

end CheckReport

/-! ### One document -/

/-- A file without a value breaks no rule. -/
theorem FileTree.breaks_eq_none {tree : FileTree} {path : String} (h : tree.value? path = none) :
    tree.breaks path = fun _ => false := by
  funext rule
  rw [breaks, h, Option.any_none]

/-- A file breaks the rules that its value breaks. -/
theorem FileTree.breaks_eq_some {tree : FileTree} {path : String} {value : Value}
    (h : tree.value? path = some value) : tree.breaks path = (·.isBroken value) := by
  funext rule
  rw [breaks, h, Option.any_some]

/-- The violations of a tree are those of the rules that it breaks. -/
theorem RuleSet.violations_check (rules : RuleSet) (file : String) (tree : Value) :
    (rules.check file tree).violations =
      (rules.all.filter (·.isBroken tree)).map (Rule.violation file) := by
  rw [all, List.filter_append, List.filter_map, List.filter_map, List.map_append, List.map_map,
    List.map_map, FileViolations.violations, check, List.map_map, List.map_map]
  rfl

/-! ### All documents -/

/-- The number of violations of files is the length of their list. -/
theorem FileViolations.countAll_eq_length (files : List FileViolations) :
    countAll files = (files.flatMap violations).length := by
  induction files with
  | nil => rfl
  | cons file files ih =>
    rw [countAll, ih, List.flatMap_cons, List.length_append, length_violations]

/-- The files without violations add none. -/
theorem FileViolations.flatMap_violations_filter (files : List FileViolations) :
    (files.filter fun file => 0 < file.count).flatMap violations = files.flatMap violations := by
  induction files with
  | nil => rfl
  | cons file files ih =>
    rw [List.filter_cons, List.flatMap_cons]
    split
    · rw [List.flatMap_cons, ih]
    · rename_i hcount
      have hnil : file.violations = [] := by
        apply List.eq_nil_of_length_eq_zero
        rw [length_violations]
        simpa using hcount
      rw [hnil, ih, List.nil_append]

/-- The violations of the documents that have a value are the pairs of a document and a rule that is
broken there. -/
theorem FileTree.flatMap_violations (tree : FileTree) (rules : RuleSet) (paths : List String) :
    (paths.filterMap fun path => (tree.value? path).map (rules.check path)).flatMap
        FileViolations.violations =
      ((paths ×ˢ rules.all).filter fun pair => tree.breaks pair.1 pair.2).map fun pair =>
        pair.2.violation pair.1 := by
  induction paths with
  | nil => rfl
  | cons path paths ih =>
    -- The pairs of the first document are those of the rules that are broken in it.
    have hhead : ((rules.all.map (Prod.mk path)).filter fun pair => tree.breaks pair.1 pair.2).map
        (fun pair => pair.2.violation pair.1) =
          (rules.all.filter (tree.breaks path)).map (Rule.violation path) := by
      rw [List.filter_map, List.map_map]
      rfl
    rw [List.product_cons, List.filter_append, List.map_append, hhead, ← ih, List.filterMap_cons]
    cases hvalue : tree.value? path with
    | none => simp [breaks_eq_none hvalue]
    | some value =>
      rw [Option.map_some, List.flatMap_cons, RuleSet.violations_check, breaks_eq_some hvalue]

/-- The files with violations are the documents in which a rule is broken, in their order. -/
theorem FileTree.map_file_filter (tree : FileTree) (rules : RuleSet) (paths : List String) :
    ((paths.filterMap fun path => (tree.value? path).map (rules.check path)).filter fun file =>
        0 < file.count).map FileViolations.file =
      paths.filter fun path => rules.all.any (tree.breaks path) := by
  induction paths with
  | nil => rfl
  | cons path paths ih =>
    rw [List.filterMap_cons, List.filter_cons, ← ih]
    cases hvalue : tree.value? path with
    | none =>
      have hnone : rules.all.any (tree.breaks path) = false := by simp [breaks_eq_none hvalue]
      rw [hnone]
      rfl
    | some value =>
      have hcount : decide (0 < (rules.check path value).count) =
          rules.all.any (tree.breaks path) := by
        rw [← FileViolations.length_violations, RuleSet.violations_check, List.length_map,
          breaks_eq_some hvalue, Bool.eq_iff_iff]
        simp [List.length_pos_iff_exists_mem]
      rw [Option.map_some, List.filter_cons, hcount]
      cases rules.all.any (tree.breaks path) <;> rfl

/-- What is put together from what a check made of documents accounts for them. -/
theorem CheckReport.accounts_of_checkedAs {rules : RuleSet} {tree : FileTree}
    {paths : List String} {outcomes : List CheckOutcome}
    (h : List.Forall₂ (CheckedAs rules tree) paths outcomes) :
    (ofOutcomes outcomes).Accounts rules tree paths := by
  have hfound := filterMap_found?_of_checkedAs h
  have hskipped : (ofOutcomes outcomes).skipped.map ParseFailure.file =
      paths.filter tree.isUndecodable := map_file_failure?_of_checkedAs h
  have hviolations : (ofOutcomes outcomes).violations =
      ((paths ×ˢ rules.all).filter fun pair => tree.breaks pair.1 pair.2).map fun pair =>
        pair.2.violation pair.1 := by
    rw [← FileTree.flatMap_violations, ← hfound, ← FileViolations.flatMap_violations_filter]
    rfl
  have hlength : (ofOutcomes outcomes).violations.length = (ofOutcomes outcomes).violationCount := by
    rw [violations, ofOutcomes, FileViolations.countAll_eq_length,
      FileViolations.flatMap_violations_filter]
  constructor
  case count => rw [← hlength, hviolations, List.length_map, List.countP_eq_length_filter]
  case violations => exact hviolations
  case length_violations => exact hlength
  case sum_files =>
    rw [← hlength, violations, List.length_flatMap]
    apply congrArg
    apply List.map_congr_left
    intro file _
    exact file.length_violations.symm
  case files_ne_nil =>
    intro file hfile hnil
    have hcount := (List.mem_filter.1 hfile).2
    simp [FileViolations.count, hnil] at hcount
  case files =>
    rw [← FileTree.map_file_filter, ← hfound]
    rfl
  case skipped => exact hskipped
  case filesChecked => exact length_found?_of_checkedAs h
  case covered =>
    intro path hpath
    rw [hskipped, List.mem_filter, FileTree.isUndecodable]
    cases (tree.value? path).isSome <;> cases tree.isEmptyFile path <;> simp [hpath]
  case separate =>
    intro path hpath
    have hempty : tree.isEmptyFile path = true → (tree.value? path).isSome = false :=
      FileTree.isSome_value?_of_isEmptyFile
    rw [hskipped, List.mem_filter, FileTree.isUndecodable]
    cases hvalue : (tree.value? path).isSome <;> cases hfile : tree.isEmptyFile path <;>
      simp_all

/-! ### The command -/

/-- What is shown starts with the count of a report: a text with its first line, and JSON with its
first two members. -/
def Command.Style.Announces (style : Style) (report : CheckReport) (output : String) : Prop :=
  ∃ rest, output =
    (if style.json then
      "\x7b\n  \"files_checked\": " ++ toString report.filesChecked ++
        ",\n  \"violation_count\": " ++ toString report.violationCount ++ ",\n"
    else "Errors found: " ++ toString report.violationCount ++ "\n") ++ rest

/-- The text of an object with three members or more starts with the first two of them. -/
theorem Json.exists_text_object (first second third : String × Json)
    (members : List (String × Json)) : ∃ rest,
    (Json.object (first :: second :: third :: members)).text =
      ['\x7b', '\n', ' ', ' '] ++ (Text.quoted first.1.toList ++ ':' :: ' ' :: first.2.textAt 1) ++
        [',', '\n', ' ', ' '] ++
          (Text.quoted second.1.toList ++ ':' :: ' ' :: second.2.textAt 1) ++
            [',', '\n'] ++ rest := by
  let others := (',' :: newLine 1).intercalate (memberTextsAt 1 (third :: members))
  refine ⟨[' ', ' '] ++ others ++ ['\n', '\x7d'], ?_⟩
  simp [others, text, textAt, memberTextsAt, enclosed, newLine, List.intercalate_cons_cons,
    List.replicate]

/-- The text of a report in JSON starts with its two numbers. -/
theorem CheckReport.exists_text_json (report : CheckReport) : ∃ rest,
    String.ofList report.json.text =
      "\x7b\n  \"files_checked\": " ++ toString report.filesChecked ++
        ",\n  \"violation_count\": " ++ toString report.violationCount ++ ",\n" ++ rest := by
  have hnumber (n : Nat) : (toString n).toList = decimalText n := by
    rw [Nat.toString_eq_repr, Nat.repr, String.toList_ofList, decimalText]
  have hchecked : Text.quoted "files_checked".toList = "\"files_checked\"".toList := by decide
  have hcount : Text.quoted "violation_count".toList = "\"violation_count\"".toList := by decide
  obtain ⟨rest, hrest⟩ := Json.exists_text_object ("files_checked", .number report.filesChecked)
    ("violation_count", .number report.violationCount)
    ("files", .array (report.files.map FileViolations.json))
    [("skipped", .array (report.skipped.map fun failure => .object failure.members))]
  refine ⟨String.ofList rest, ?_⟩
  apply String.toList_injective
  rw [json, hrest]
  simp only [hchecked, hcount, Json.textAt, String.toList_append, String.toList_ofList, hnumber]
  simp

/-- The output for a report announces its count. -/
theorem Command.Style.announces_output (style : Style) (report : CheckReport) :
    style.Announces report (style.output report.json report.text) := by
  unfold Announces output
  cases style.json with
  | false =>
    rw [if_neg Bool.false_ne_true, if_neg Bool.false_ne_true]
    unfold CheckReport.text
    dsimp only
    split
    · exact ⟨"", String.append_empty.symm⟩
    · rw [String.append_assoc]
      exact ⟨_, rfl⟩
  | true =>
    obtain ⟨rest, hrest⟩ := report.exists_text_json
    rw [if_pos rfl, if_pos rfl, asLine, hrest, String.append_assoc]
    exact ⟨_, rfl⟩

/-- Where the command ends with the report of a check, the count that it shows is that of the pairs
of a document and a rule that is broken there, and the report accounts for all documents. The exit
code is the count, as far as codes go. -/
theorem Command.exists_accounts_of_check {tree : FileTree} {config : Config}
    {roots keys values : List String} {style : Style} {completion : Completion}
    (h : (check tree config roots keys values).map (Completion.ofCheck style) = .ok completion) :
    ∃ rules report,
      RuleSet.ofSpecs (config.keys ++ keys) (config.values ++ values) = .ok rules ∧
        rules.run tree (config.rootsOr roots) = .ok report ∧
          report.Accounts rules tree (tree.documents (config.rootsOr roots)) ∧
            style.Announces report completion.output ∧
              completion.code = min report.violationCount 255 := by
  obtain ⟨report, hcheck, rfl⟩ := Result.of_map_eq_ok h
  unfold check at hcheck
  dsimp only at hcheck
  split at hcheck
  · contradiction
  · split at hcheck
    · contradiction
    · rename_i rules hrules
      have hrun := Result.of_mapError_eq_ok hcheck
      obtain ⟨-, outcomes, houtcomes, rfl⟩ := RuleSet.exists_outcomes_of_run hrun
      exact ⟨rules, .ofOutcomes outcomes, hrules, hrun, CheckReport.accounts_of_checkedAs houtcomes,
        style.announces_output _, rfl⟩

/-- Two key rules that are broken and a value rule that is given twice make four violations, though
only one document of four is checked. -/
theorem Command.exists_accounts_of_check_mixed :
    ∃ (completion : Completion) (rules : RuleSet) (report : CheckReport),
      (check .mixed .default ["conf"] ["http", "when:day", "http:frames"]
          ["http:frames:on", "http:frames:on"]).map (Completion.ofCheck ⟨0, false⟩) =
            .ok completion ∧
        rules.run .mixed ["conf"] = .ok report ∧ report.Accounts rules .mixed
          ["conf/a.neon", "conf/b.neon", "conf/c.neon", "conf/d.neon"] ∧
            report.violationCount = 4 ∧ completion.code = 4 := by
  let frames : ValueRule :=
    ⟨⟨["http", "frames"], by simp, by simp⟩, .scalar (.bool true), "http:frames:on"⟩
  let rules : RuleSet := ⟨[⟨["http"], by simp, by simp⟩, ⟨["when", "day"], by simp, by simp⟩,
    ⟨["http", "frames"], by simp, by simp⟩], [frames, frames]⟩
  have hrules : RuleSet.ofSpecs ["http", "when:day", "http:frames"]
      ["http:frames:on", "http:frames:on"] = .ok rules := rfl
  have hrun : (rules.run .mixed ["conf"]).map (·.violationCount) = .ok 4 := by
    have hroots : ["conf"].find? (fun root => !FileTree.mixed.isDirectory root) = none := by
      decide +kernel
    rw [RuleSet.run, hroots]
    dsimp only
    rw [FileTree.documents_mixed]
    decide +kernel
  obtain ⟨report, hreport, hcount⟩ := Result.of_map_eq_ok hrun
  have hcheck : (check .mixed .default ["conf"] ["http", "when:day", "http:frames"]
      ["http:frames:on", "http:frames:on"]).map (Completion.ofCheck ⟨0, false⟩) =
        .ok (Completion.ofCheck ⟨0, false⟩ report) := by
    have hsame : check .mixed .default ["conf"] ["http", "when:day", "http:frames"]
        ["http:frames:on", "http:frames:on"] = (rules.run .mixed ["conf"]).mapError .check := rfl
    rw [hsame, hreport]
    rfl
  obtain ⟨rules', report', hrules', hreport', haccounts, -, hcode⟩ := exists_accounts_of_check hcheck
  obtain rfl := Except.ok.inj (hrules.symm.trans hrules')
  obtain rfl := Except.ok.inj (hreport.symm.trans hreport')
  refine ⟨_, rules, report, hcheck, hreport, ?_, hcount, ?_⟩
  · rw [← FileTree.documents_mixed]
    exact haccounts
  · rw [hcode, hcount]
    rfl

end NeonAudit
