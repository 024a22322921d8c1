import NeonAudit.Proofs.Audit.Agreement
import NeonAudit.Proofs.Audit.Count
import NeonAudit.Proofs.FileTree.Overlap

/-!
# What is reported once

A check and a validation treat each path that is listed once. So nothing about a document is
counted or reported twice below roots that are spelled alike. A directory that is given a second
time with a point in front is another spelling of the same root: all that is wrong in it is then
counted and reported twice.
-/

namespace NeonAudit

/-- What is wrong with a file is told of that file, and that it does not decode is told once. -/
theorem ValidateMode.file_of_failuresOfFile {mode : ValidateMode} {tree : FileTree} {path : String}
    {found : List ValidateFailure} (h : mode.failuresOfFile tree path = .ok found) :
    (∀ failure ∈ found, failure.file = path) ∧
      ((found.filterMap ValidateFailure.parse?).map ParseFailure.file).Sublist [path] := by
  have hparse {failure : ParseFailure} (hfile : failure.file = path) :
      (∀ other ∈ [ValidateFailure.parse failure], other.file = path) ∧
        (([ValidateFailure.parse failure].filterMap ValidateFailure.parse?).map
          ParseFailure.file).Sublist [path] := by
    subst hfile
    exact ⟨List.forall_mem_singleton.2 rfl, .refl _⟩
  unfold failuresOfFile at h
  split at h
  · contradiction
  · rename_i failure hsource
    obtain rfl := Except.ok.inj h
    exact hparse (FileTree.of_source_eq_error hsource).1
  · rename_i source hsource
    unfold failuresOfSource at h
    split at h
    · contradiction
    · rename_i failure hdecode
      obtain rfl := Except.ok.inj h
      exact hparse ((of_decodeSource hdecode).2 failure rfl)
    · rename_i value hdecode
      obtain rfl := Except.ok.inj h
      cases mode with
      | normal => exact ⟨fun _ hmem => absurd hmem List.not_mem_nil, List.nil_sublist _⟩
      | strictScalar =>
        have hleaves : (value.objectLeaves.map fun leaf =>
            ValidateFailure.nonScalar (.ofLeaf path leaf)).filterMap ValidateFailure.parse? =
              [] := by
          rw [List.filterMap_map]
          exact List.filterMap_eq_nil_iff.2 fun _ _ => rfl
        refine ⟨?_, ?_⟩
        · intro failure hmem
          obtain ⟨leaf, -, rfl⟩ := List.mem_map.1 hmem
          rfl
        · rw [failuresOfTree, hleaves]
          exact List.nil_sublist _

/-- The files that do not decode by a validation of some files are among them, in their order. -/
theorem ValidateMode.sublist_of_failuresOfFile {mode : ValidateMode} {tree : FileTree}
    {paths : List String} {failures : List (List ValidateFailure)}
    (h : List.Forall₂ (fun path found => mode.failuresOfFile tree path = .ok found) paths
      failures) :
    ((failures.flatten.filterMap ValidateFailure.parse?).map ParseFailure.file).Sublist paths := by
  induction h with
  | nil => exact .refl _
  | @cons path found paths failures hpath _ ih =>
    rw [List.flatten_cons, List.filterMap_append, List.map_append]
    exact (file_of_failuresOfFile hpath).2.append ih

namespace FileTree

variable {tree : FileTree}

/-- Documents are listed once exactly below roots that are spelled alike, which roots that lead
down by names alone are. What is wrong with a document is then counted and reported once: the files
of the report of a check are listed once, those with violations and those that were skipped, and a
validation goes once through each document. -/
theorem WellFormed.listsOnce_iff_spelledAlike (h : tree.WellFormed) (roots : List String) :
    (tree.ListsOnce (tree.documents roots) ↔ tree.SpelledAlike roots) ∧
      ((∀ root ∈ roots, tree.LeadsDown root) → tree.SpelledAlike roots) ∧
      (tree.SpelledAlike roots →
        (∀ (rules : RuleSet) report, rules.run tree roots = .ok report →
          report.Accounts rules tree (tree.documents roots) ∧
            tree.ListsOnce (report.files.map FileViolations.file) ∧
              tree.ListsOnce (report.skipped.map ParseFailure.file)) ∧
        ∀ (mode : ValidateMode) report, mode.run tree roots = .ok report →
          ∃ failures, report.failures = failures.flatten ∧
            List.Forall₂ (fun path found => mode.failuresOfFile tree path = .ok found ∧
              ∀ failure ∈ found, failure.file = path) (tree.documents roots) failures ∧
            tree.ListsOnce ((report.failures.filterMap ValidateFailure.parse?).map
              ParseFailure.file)) := by
  refine ⟨h.listsOnce_documents_iff, spelledAlike_of_leadsDown, fun halike => ?_⟩
  have honce := h.listsOnce_documents_iff.2 halike
  refine ⟨fun rules report hrun => ?_, fun mode report hrun => ?_⟩
  · obtain ⟨-, outcomes, houtcomes, rfl⟩ := RuleSet.exists_outcomes_of_run hrun
    have haccounts := CheckReport.accounts_of_checkedAs houtcomes
    refine ⟨haccounts, ?_, ?_⟩
    · rw [haccounts.files]
      exact honce.sublist List.filter_sublist
    · rw [haccounts.skipped]
      exact honce.sublist List.filter_sublist
  · unfold ValidateMode.run at hrun
    obtain ⟨failures, hfailures, rfl⟩ := Result.of_map_eq_ok hrun
    rw [documents_filter_isDirectory, Result.mapM_eq_ok_iff] at hfailures
    refine ⟨failures, rfl, hfailures.imp fun path found hfound => ?_, ?_⟩
    · exact ⟨hfound, (ValidateMode.file_of_failuresOfFile hfound).1⟩
    · exact honce.sublist (ValidateMode.sublist_of_failuresOfFile hfailures)

/-- A directory, one inside it, and the first again lead down by names alone, so their documents are
listed once. -/
theorem listsOnce_linked : linked.SpelledAlike ["conf", "conf/x.neon", "conf"] ∧
    linked.ListsOnce (linked.documents ["conf", "conf/x.neon", "conf"]) := by
  have houter : linked.LeadsDown "conf" :=
    ⟨["conf"], by decide, by decide, fun location hlocate => by cases hlocate; rfl⟩
  have hinner : linked.LeadsDown "conf/x.neon" :=
    ⟨["conf", "x.neon"], by decide, by decide, fun location hlocate => by cases hlocate; rfl⟩
  have hdown : ∀ root ∈ ["conf", "conf/x.neon", "conf"], linked.LeadsDown root := by
    simp only [List.forall_mem_cons]
    exact ⟨houter, hinner, houter, fun _ hmem => absurd hmem List.not_mem_nil⟩
  obtain ⟨honce, halike, -⟩ :=
    wellFormed_linked.listsOnce_iff_spelledAlike ["conf", "conf/x.neon", "conf"]
  exact ⟨halike hdown, honce.2 (halike hdown)⟩

/-- The documents of a directory that is given twice, the second time with a point in front. -/
theorem documents_mixed_pointed : mixed.documents ["conf", "./conf"] =
    ["conf/a.neon", "conf/b.neon", "conf/c.neon", "conf/d.neon", "./conf/a.neon", "./conf/b.neon",
      "./conf/c.neon", "./conf/d.neon"] := by
  have hplain := @newDocumentsBelow_of_pairwise mixed "conf"
    ["conf/a.neon", "conf/b.neon", "conf/c.neon", "conf/d.neon"] (by decide +kernel)
    (by decide +kernel)
  have hpointed := @newDocumentsBelow_of_pairwise mixed "./conf"
    ["./conf/a.neon", "./conf/b.neon", "./conf/c.neon", "./conf/d.neon"] (by decide +kernel)
    (by decide +kernel)
  rw [documents, documentsAfter, documentsAfter, documentsAfter, hplain, hpointed]
  decide +kernel

/-- A directory that is given twice, the second time with a point in front, has its entries listed
twice. The one violation in it is counted twice, and its two failures are reported twice. -/
theorem not_listsOnce_mixed : ∃ rules : RuleSet,
    ¬mixed.ListsOnce (mixed.documents ["conf", "./conf"]) ∧
      (rules.run mixed ["conf"]).map (·.violationCount) = .ok 1 ∧
        (rules.run mixed ["conf", "./conf"]).map (·.violationCount) = .ok 2 ∧
          (ValidateMode.normal.run mixed ["conf"]).map (·.failures.length) = .ok 2 ∧
            (ValidateMode.normal.run mixed ["conf", "./conf"]).map (·.failures.length) = .ok 4 := by
  refine ⟨⟨[⟨["http"], by simp, by simp⟩], []⟩, ?_, ?_, ?_, ?_, ?_⟩
  · intro honce
    have hplain : mixed.NamesEntry "conf/a.neon" (["conf"] ++ ["a.neon"]) := by
      have hsteps : stepsOf "conf/a.neon" = [.down "conf"] ++ [.down "a.neon"] := by decide
      exact .intro hsteps rfl rfl
    have hpointed : mixed.NamesEntry "./conf/a.neon" (["conf"] ++ ["a.neon"]) := by
      have hsteps : stepsOf "./conf/a.neon" = [.stay, .down "conf"] ++ [.down "a.neon"] := by decide
      exact .intro hsteps rfl rfl
    rw [documents_mixed_pointed] at honce
    have hsame := honce.eq_of_namesEntry (by decide) (by decide) hplain hpointed
    exact absurd hsame (by decide)
  · rw [RuleSet.run_of_isDirectory _ (by decide +kernel), documents_mixed]
    decide +kernel
  · rw [RuleSet.run_of_isDirectory _ (by decide +kernel), documents_mixed_pointed]
    decide +kernel
  · rw [ValidateMode.run, documents_filter_isDirectory, documents_mixed]
    decide +kernel
  · rw [ValidateMode.run, documents_filter_isDirectory, documents_mixed_pointed]
    decide +kernel

end FileTree

end NeonAudit
