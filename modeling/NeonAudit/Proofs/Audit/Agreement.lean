import NeonAudit.Audit.Validate
import NeonAudit.Proofs.Audit.Outcome

/-!
# Checks and validations of the same documents

A check and a validation go through the same documents, and treat the empty ones, those that are not
UTF-8 and those that do not decode in different places. Where a check ends in a report, a validation
of either mode does too, and it reports the documents that the check skipped, as failures of the same
kind and in the same order. What a strict validation reports besides is about documents that decode.
-/

namespace NeonAudit

/-- The failure to decode, if it is one. -/
def ValidateFailure.parse? : ValidateFailure → Option ParseFailure
  | parse failure => some failure
  | nonScalar _ => none

/-- Failures among which none is about a leaf are failures to decode. -/
theorem ValidateFailure.eq_map_parse {failures : List ValidateFailure}
    (h : ∀ violation, .nonScalar violation ∉ failures) :
    failures = (failures.filterMap parse?).map .parse := by
  induction failures with
  | nil => rfl
  | cons failure failures ih =>
    have htail := ih fun violation hmem => h violation (List.mem_cons_of_mem failure hmem)
    cases failure with
    | parse failure =>
      have hparse : parse? (.parse failure) = some failure := rfl
      rw [List.filterMap_cons_some hparse, List.map_cons, ← htail]
    | nonScalar violation => exact absurd List.mem_cons_self (h violation)

/-- What is wrong with a file that has a source is what is wrong with the source. -/
theorem ValidateMode.failuresOfFile_of_source {tree : FileTree} {path source : String}
    (mode : ValidateMode) (h : tree.source path = .ok (.ok source)) :
    mode.failuresOfFile tree path = mode.failuresOfSource path source := by
  rw [failuresOfFile, h]

/-- What is wrong with a document by a validation: that it does not decode, if the check skipped it
for that, and if it is strict and the document has a value, its leaves. -/
theorem ValidateMode.exists_failuresOfFile {rules : RuleSet} {tree : FileTree} {path : String}
    {outcome : CheckOutcome} (h : CheckedAs rules tree path outcome) (mode : ValidateMode) :
    ∃ failures, mode.failuresOfFile tree path = .ok failures ∧
      failures.filterMap ValidateFailure.parse? = outcome.failure?.toList ∧
        ∀ violation, .nonScalar violation ∈ failures →
          mode = .strictScalar ∧ violation.file = path ∧ (tree.value? path).isSome = true := by
  cases h with
  | empty hsource =>
    have hdecode : decodeSource path "" = .ok (.ok .null) := by
      have hnull : decode "" = .ok .null := by cbv
      rw [decodeSource, hnull]
    have hleaves : mode.failuresOfTree path .null = [] := by cases mode <;> rfl
    refine ⟨[], ?_, rfl, by simp⟩
    rw [mode.failuresOfFile_of_source hsource, failuresOfSource, hdecode]
    exact congrArg Except.ok hleaves
  | encoding hsource =>
    rename_i failure
    refine ⟨[.parse failure], ?_, rfl, by simp⟩
    rw [failuresOfFile, hsource]
  | malformed hsource hne hdecode =>
    rename_i source failure
    refine ⟨[.parse failure], ?_, rfl, by simp⟩
    rw [mode.failuresOfFile_of_source hsource, failuresOfSource, hdecode]
  | checked hsource hne hdecode =>
    rename_i source value
    have hvalue := value?_of_decodeSource hsource hne hdecode
    refine ⟨mode.failuresOfTree path value, ?_, ?_, ?_⟩
    · rw [mode.failuresOfFile_of_source hsource, failuresOfSource, hdecode]
    · cases mode with
      | normal => rfl
      | strictScalar =>
        rw [failuresOfTree, List.filterMap_map]
        exact List.filterMap_eq_nil_iff.2 fun leaf _ => rfl
    · intro violation hmem
      cases mode with
      | normal => simp [failuresOfTree] at hmem
      | strictScalar =>
        obtain ⟨leaf, -, hleaf⟩ := List.mem_map.1 hmem
        obtain rfl := ValidateFailure.nonScalar.inj hleaf
        exact ⟨rfl, rfl, by rw [hvalue]; rfl⟩

/-- What is wrong with documents by a validation: that they do not decode, for those that the check
skipped, in their order, and if it is strict, leaves of documents that have a value. -/
theorem ValidateMode.exists_failures_of_checkedAs {rules : RuleSet} {tree : FileTree}
    {paths : List String} {outcomes : List CheckOutcome}
    (h : List.Forall₂ (CheckedAs rules tree) paths outcomes) (mode : ValidateMode) :
    ∃ failures, paths.mapM (mode.failuresOfFile tree) = .ok failures ∧
      failures.length = paths.length ∧
        failures.flatten.filterMap ValidateFailure.parse? =
          outcomes.filterMap CheckOutcome.failure? ∧
          ∀ violation, .nonScalar violation ∈ failures.flatten →
            mode = .strictScalar ∧ violation.file ∈ paths ∧
              (tree.value? violation.file).isSome = true := by
  induction h with
  | nil => exact ⟨[], rfl, rfl, rfl, by simp⟩
  | @cons path outcome paths outcomes hpath _ ih =>
    obtain ⟨first, hfirst, hparse, hleaves⟩ := exists_failuresOfFile hpath mode
    obtain ⟨rest, hrest, hlength, hparses, hothers⟩ := ih
    refine ⟨first :: rest, ?_, ?_, ?_, ?_⟩
    · rw [Result.mapM_eq_ok_iff] at hrest ⊢
      exact .cons hfirst hrest
    · rw [List.length_cons, List.length_cons, hlength]
    · rw [List.flatten_cons, List.filterMap_append, hparse, hparses]
      cases hfailure : outcome.failure? with
      | none => rw [List.filterMap_cons_none hfailure]; rfl
      | some failure => rw [List.filterMap_cons_some hfailure]; rfl
    · intro violation hmem
      rw [List.flatten_cons, List.mem_append] at hmem
      cases hmem with
      | inl hmem =>
        obtain ⟨hmode, hfile, hvalue⟩ := hleaves violation hmem
        rw [hfile]
        exact ⟨hmode, List.mem_cons_self, hvalue⟩
      | inr hmem =>
        obtain ⟨hmode, hfile, hvalue⟩ := hothers violation hmem
        exact ⟨hmode, List.mem_cons_of_mem path hfile, hvalue⟩

/-- Where a check ends in a report, so do the validations of both modes. The normal one reports just
the documents that the check skipped, and the strict one reports these, and besides them only leaves
of documents that have a value. Both go through the documents that were checked, those that were
skipped, and the empty ones. -/
theorem RuleSet.exists_validations_of_run {rules : RuleSet} {tree : FileTree}
    {roots : List String} {report : CheckReport} (h : rules.run tree roots = .ok report) :
    ∃ normal strict, ValidateMode.normal.run tree roots = .ok normal ∧
      ValidateMode.strictScalar.run tree roots = .ok strict ∧
        normal.failures = report.skipped.map .parse ∧
          strict.failures.filterMap ValidateFailure.parse? = report.skipped ∧
            (∀ violation, .nonScalar violation ∈ strict.failures →
              violation.file ∈ tree.documents roots ∧
                (tree.value? violation.file).isSome = true) ∧
              normal.filesChecked = strict.filesChecked ∧
                strict.filesChecked = report.filesChecked + report.skipped.length +
                  (tree.documents roots).countP tree.isEmptyFile := by
  obtain ⟨hroots, outcomes, houtcomes, rfl⟩ := exists_outcomes_of_run h
  have hfilter : roots.filter tree.isDirectory = roots := List.filter_eq_self.2 hroots
  have hrun {mode : ValidateMode} {failures : List (List ValidateFailure)}
      (hfailures : (tree.documents roots).mapM (mode.failuresOfFile tree) = .ok failures) :
      mode.run tree roots = .ok (ValidateMode.reportOf failures) := by
    rw [ValidateMode.run, hfilter, hfailures]
    rfl
  obtain ⟨normal, hnormal, hnormalLength, hnormalParses, hnormalOthers⟩ :=
    ValidateMode.exists_failures_of_checkedAs houtcomes .normal
  obtain ⟨strict, hstrict, hstrictLength, hstrictParses, hstrictOthers⟩ :=
    ValidateMode.exists_failures_of_checkedAs houtcomes .strictScalar
  have hnone : ∀ violation, .nonScalar violation ∉ normal.flatten := by
    intro violation hmem
    exact absurd (hnormalOthers violation hmem).1 (by decide)
  refine ⟨ValidateMode.reportOf normal, ValidateMode.reportOf strict, hrun hnormal, hrun hstrict, ?_,
    hstrictParses, ?_, ?_, ?_⟩
  · exact (ValidateFailure.eq_map_parse hnone).trans (congrArg _ hnormalParses)
  · intro violation hmem
    exact (hstrictOthers violation hmem).2
  · exact hnormalLength.trans hstrictLength.symm
  · exact hstrictLength.trans (length_eq_of_checkedAs houtcomes)

/-- A check that skips two documents of four and leaves out an empty one agrees with the validations,
of which the strict one also reports an object. -/
theorem exists_validations_of_run_mixed : ∃ rules report normal strict,
    RuleSet.ofSpecs [] ["http:frames:on"] = .ok rules ∧
      rules.run .mixed ["conf"] = .ok report ∧
        report.skipped.map ParseFailure.file = ["conf/b.neon", "conf/c.neon"] ∧
          ValidateMode.normal.run .mixed ["conf"] = .ok normal ∧
            ValidateMode.strictScalar.run .mixed ["conf"] = .ok strict ∧
              normal.failures = report.skipped.map .parse ∧
                strict.failures.filterMap ValidateFailure.parse? = report.skipped ∧
                  strict.filesChecked = 4 := by
  let rules : RuleSet :=
    ⟨[], [⟨⟨["http", "frames"], by simp, by simp⟩, .scalar (.bool true), "http:frames:on"⟩]⟩
  have hrules : RuleSet.ofSpecs [] ["http:frames:on"] = .ok rules := rfl
  have hrun : (rules.run .mixed ["conf"]).map (fun report =>
      (report.skipped.map ParseFailure.file, report.filesChecked, report.skipped.length)) =
        .ok (["conf/b.neon", "conf/c.neon"], 1, 2) := by
    have hroots : ["conf"].find? (fun root => !FileTree.mixed.isDirectory root) = none := by
      decide +kernel
    rw [RuleSet.run, hroots]
    dsimp only
    rw [FileTree.documents_mixed]
    decide +kernel
  obtain ⟨report, hreport, hfacts⟩ := Result.of_map_eq_ok hrun
  simp only [Prod.mk.injEq] at hfacts
  obtain ⟨hskipped, hchecked, hlength⟩ := hfacts
  obtain ⟨normal, strict, hnormal, hstrict, hsame, hparses, -, -, hcount⟩ :=
    RuleSet.exists_validations_of_run hreport
  refine ⟨rules, report, normal, strict, hrules, hreport, hskipped, hnormal, hstrict, hsame, hparses,
    ?_⟩
  have hempty : (FileTree.mixed.documents ["conf"]).countP FileTree.mixed.isEmptyFile = 1 := by
    rw [FileTree.documents_mixed]
    decide +kernel
  rw [hcount, hchecked, hlength, hempty]

end NeonAudit
