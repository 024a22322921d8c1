import NeonAudit.Audit.Check
import NeonAudit.Proofs.Result
import NeonAudit.Proofs.Text.Utf8

/-!
# What becomes of a document

A check that ends in a report has read every document below its roots and made exactly one of three
things of each: it was empty, or it did not decode, or its value was checked against the rules. The
report is put together from what became of the documents in the order in which they were found. So
what each of its accounts holds is shown for one document first, and then for all of them.
-/

namespace NeonAudit

namespace FileTree

/-- Whether the file at a path has no content. -/
def isEmptyFile (tree : FileTree) (path : String) : Bool :=
  match tree.read path with
  | .ok bytes => bytes.isEmpty
  | .error _ => false

/-- The value of the file at a path, if it has content that is UTF-8 and decodes. -/
def value? (tree : FileTree) (path : String) : Option Value :=
  match tree.read path with
  | .ok bytes =>
    if bytes.isEmpty then none
    else (Text.ofUtf8? bytes).bind fun text => (decodeChars text).toOption
  | .error _ => none

/-- Whether the file at a path has no value although it is not empty. -/
def isUndecodable (tree : FileTree) (path : String) : Bool :=
  !(tree.value? path).isSome && !tree.isEmptyFile path

/-- An empty file has no value. -/
theorem isSome_value?_of_isEmptyFile {tree : FileTree} {path : String}
    (h : tree.isEmptyFile path = true) : (tree.value? path).isSome = false := by
  unfold isEmptyFile at h
  unfold value?
  split at h
  · rw [if_pos h]
    rfl
  · contradiction

/-- Each of some files has a value, or has content but no value, or is empty. -/
theorem length_eq_countP (tree : FileTree) (paths : List String) :
    paths.length = (paths.countP fun path => (tree.value? path).isSome) +
      paths.countP tree.isUndecodable + paths.countP tree.isEmptyFile := by
  induction paths with
  | nil => rfl
  | cons path paths ih =>
    simp only [List.length_cons, List.countP_cons]
    cases hempty : tree.isEmptyFile path with
    | true =>
      have hvalue := isSome_value?_of_isEmptyFile hempty
      simp [isUndecodable, hempty, hvalue]
      omega
    | false =>
      cases hvalue : (tree.value? path).isSome with
      | true =>
        simp [isUndecodable, hvalue]
        omega
      | false =>
        simp [isUndecodable, hempty, hvalue]
        omega

/-- A source that is not UTF-8 has content, is blamed by its path, and has no value. -/
theorem of_source_eq_error {tree : FileTree} {path : String} {failure : ParseFailure}
    (h : tree.source path = .ok (.error failure)) :
    failure.file = path ∧ tree.isEmptyFile path = false ∧ tree.value? path = none := by
  unfold source at h
  split at h
  · contradiction
  · rename_i bytes hread
    have hsource := Except.ok.inj h
    unfold sourceOfBytes at hsource
    split at hsource
    · contradiction
    · rename_i hutf8
      have hne : bytes.isEmpty = false := by
        cases bytes with
        | nil => contradiction
        | cons byte bytes => rfl
      have hfile := congrArg ParseFailure.file (Except.error.inj hsource)
      refine ⟨hfile.symm, ?_, ?_⟩
      · rw [isEmptyFile, hread]
        exact hne
      · rw [value?, hread]
        simp [hutf8]

/-- A source is empty if the file has no content, and otherwise the file has the value that the
source decodes to. -/
theorem of_source_eq_ok {tree : FileTree} {path source : String}
    (h : tree.source path = .ok (.ok source)) :
    tree.isEmptyFile path = source.isEmpty ∧
      tree.value? path = if source.isEmpty then none else (decode source).toOption := by
  unfold FileTree.source at h
  split at h
  · contradiction
  · rename_i bytes hread
    have hsource := Except.ok.inj h
    unfold sourceOfBytes at hsource
    split at hsource
    · rename_i text hutf8
      obtain rfl := Except.ok.inj hsource
      have hempty : bytes.isEmpty = (String.ofList text).isEmpty := by
        rw [Bool.eq_iff_iff, List.isEmpty_iff, ← Text.ofUtf8?_eq_some_nil, hutf8]
        simp
      refine ⟨?_, ?_⟩
      · rw [isEmptyFile, hread]
        exact hempty
      · rw [value?, hread]
        dsimp only
        rw [hempty, hutf8, Option.bind_some, decode, String.toList_ofList]
    · contradiction

end FileTree

/-- A source that decodes has a value, and one that does not has a failure with its path. -/
theorem of_decodeSource {file source : String} {result : Except ParseFailure Value}
    (h : decodeSource file source = .ok result) :
    (decode source).toOption = result.toOption ∧
      ∀ failure, result = .error failure → failure.file = file := by
  unfold decodeSource at h
  split at h
  all_goals rename_i hdecode
  · cases h
    rw [hdecode]
    exact ⟨rfl, by simp⟩
  · cases h
    rw [hdecode]
    refine ⟨rfl, ?_⟩
    intro failure hfailure
    rw [← Except.error.inj hfailure]
    rfl
  · contradiction

/-- The value of a file with content is what its source decodes to, if it decodes. -/
theorem value?_of_decodeSource {tree : FileTree} {path source : String}
    {result : Except ParseFailure Value} (hsource : tree.source path = .ok (.ok source))
    (hne : source.isEmpty = false) (hdecode : decodeSource path source = .ok result) :
    tree.value? path = result.toOption := by
  rw [(FileTree.of_source_eq_ok hsource).2, hne, ← (of_decodeSource hdecode).1]
  rfl

/-- What a check made of a document, and what of the document it was made of. -/
inductive CheckedAs (rules : RuleSet) (tree : FileTree) (path : String) : CheckOutcome → Prop
  | empty : tree.source path = .ok (.ok "") → CheckedAs rules tree path .empty
  | encoding {failure} : tree.source path = .ok (.error failure) →
      CheckedAs rules tree path (.skipped failure)
  | malformed {source failure} : tree.source path = .ok (.ok source) → source.isEmpty = false →
      decodeSource path source = .ok (.error failure) → CheckedAs rules tree path (.skipped failure)
  | checked {source value} : tree.source path = .ok (.ok source) → source.isEmpty = false →
      decodeSource path source = .ok (.ok value) →
      CheckedAs rules tree path (.checked (rules.check path value))

/-- Whatever a check makes of a document is one of these. -/
theorem checkedAs_of_checkFile {rules : RuleSet} {tree : FileTree} {path : String}
    {outcome : CheckOutcome} (h : rules.checkFile tree path = .ok outcome) :
    CheckedAs rules tree path outcome := by
  unfold RuleSet.checkFile at h
  split at h
  · contradiction
  · rename_i failure hsource
    obtain rfl := Except.ok.inj h
    exact .encoding hsource
  · rename_i source hsource
    unfold RuleSet.checkSource at h
    split at h
    · rename_i hempty
      obtain rfl := Except.ok.inj h
      obtain rfl := String.isEmpty_iff.1 hempty
      exact .empty hsource
    · rename_i hempty
      have hne := Bool.eq_false_iff.2 hempty
      split at h
      · contradiction
      · rename_i failure hdecode
        obtain rfl := Except.ok.inj h
        exact .malformed hsource hne hdecode
      · rename_i value hdecode
        obtain rfl := Except.ok.inj h
        exact .checked hsource hne hdecode

/-- A document is checked exactly if it has a value, and then against that. -/
theorem found?_of_checkedAs {rules : RuleSet} {tree : FileTree} {path : String}
    {outcome : CheckOutcome} (h : CheckedAs rules tree path outcome) :
    outcome.found? = (tree.value? path).map (rules.check path) := by
  cases h with
  | empty hsource =>
    rw [(FileTree.of_source_eq_ok hsource).2]
    rfl
  | encoding hsource =>
    rw [(FileTree.of_source_eq_error hsource).2.2]
    rfl
  | malformed hsource hne hdecode =>
    rw [value?_of_decodeSource hsource hne hdecode]
    rfl
  | checked hsource hne hdecode =>
    rw [value?_of_decodeSource hsource hne hdecode]
    rfl

/-- A document is skipped exactly if it has content but no value. -/
theorem failure?_of_checkedAs {rules : RuleSet} {tree : FileTree} {path : String}
    {outcome : CheckOutcome} (h : CheckedAs rules tree path outcome) :
    outcome.failure?.map ParseFailure.file =
      if tree.isUndecodable path then some path else none := by
  rw [FileTree.isUndecodable]
  cases h with
  | empty hsource =>
    rw [(FileTree.of_source_eq_ok hsource).1]
    simp [CheckOutcome.failure?]
  | encoding hsource =>
    obtain ⟨hfile, hempty, hvalue⟩ := FileTree.of_source_eq_error hsource
    simp [CheckOutcome.failure?, hfile, hempty, hvalue]
  | malformed hsource hne hdecode =>
    have hfile := (of_decodeSource hdecode).2 _ rfl
    have hempty := (FileTree.of_source_eq_ok hsource).1
    have hvalue := value?_of_decodeSource hsource hne hdecode
    simp [CheckOutcome.failure?, hfile, hempty, hne, hvalue, Except.toOption]
  | checked hsource hne hdecode =>
    have hvalue := value?_of_decodeSource hsource hne hdecode
    simp [CheckOutcome.failure?, hvalue, Except.toOption]

section

variable {rules : RuleSet} {tree : FileTree} {paths : List String} {outcomes : List CheckOutcome}

/-- The documents that are checked are those that have a value, in their order. -/
theorem filterMap_found?_of_checkedAs (h : List.Forall₂ (CheckedAs rules tree) paths outcomes) :
    outcomes.filterMap CheckOutcome.found? =
      paths.filterMap fun path => (tree.value? path).map (rules.check path) := by
  induction h with
  | nil => rfl
  | cons hpath _ ih => rw [List.filterMap_cons, List.filterMap_cons, found?_of_checkedAs hpath, ih]

/-- So many documents are checked as have a value. -/
theorem length_found?_of_checkedAs (h : List.Forall₂ (CheckedAs rules tree) paths outcomes) :
    (outcomes.filterMap CheckOutcome.found?).length =
      paths.countP fun path => (tree.value? path).isSome := by
  rw [filterMap_found?_of_checkedAs h, List.length_filterMap_eq_countP]
  simp only [Option.isSome_map]

/-- The documents that are skipped are those with content but no value, in their order. -/
theorem map_file_failure?_of_checkedAs (h : List.Forall₂ (CheckedAs rules tree) paths outcomes) :
    (outcomes.filterMap CheckOutcome.failure?).map ParseFailure.file =
      paths.filter tree.isUndecodable := by
  rw [List.map_filterMap]
  induction h with
  | nil => rfl
  | @cons path outcome _ _ hpath _ ih =>
    rw [List.filterMap_cons, failure?_of_checkedAs hpath, ih, List.filter_cons]
    cases tree.isUndecodable path <;> rfl

/-- The documents that are checked, those that are skipped and the empty ones are all of them. -/
theorem length_eq_of_checkedAs (h : List.Forall₂ (CheckedAs rules tree) paths outcomes) :
    paths.length = (outcomes.filterMap CheckOutcome.found?).length +
      (outcomes.filterMap CheckOutcome.failure?).length + paths.countP tree.isEmptyFile := by
  have hfailures := congrArg List.length (map_file_failure?_of_checkedAs h)
  rw [List.length_map, ← List.countP_eq_length_filter] at hfailures
  rw [length_found?_of_checkedAs h, hfailures, ← tree.length_eq_countP]

end

/-- A check of roots that are all directories goes through the documents below them. -/
theorem RuleSet.run_of_isDirectory (rules : RuleSet) {tree : FileTree} {roots : List String}
    (h : ∀ root ∈ roots, tree.isDirectory root = true) : rules.run tree roots =
      ((tree.documents roots).mapM (rules.checkFile tree)).map CheckReport.ofOutcomes := by
  have hroots : roots.find? (fun root => !tree.isDirectory root) = none :=
    List.find?_eq_none.2 fun root hroot => by simp [h root hroot]
  rw [run, hroots]

/-- A check that ends in a report has found all its roots to be directories, and its report is put
together from what it made of the documents below them. -/
theorem RuleSet.exists_outcomes_of_run {rules : RuleSet} {tree : FileTree} {roots : List String}
    {report : CheckReport} (h : rules.run tree roots = .ok report) :
    (∀ root ∈ roots, tree.isDirectory root = true) ∧
      ∃ outcomes, List.Forall₂ (CheckedAs rules tree) (tree.documents roots) outcomes ∧
        report = .ofOutcomes outcomes := by
  unfold run at h
  split at h
  · contradiction
  · rename_i hroots
    obtain ⟨outcomes, houtcomes, hreport⟩ := Result.of_map_eq_ok h
    refine ⟨?_, outcomes, ?_, hreport.symm⟩
    · intro root hroot
      simpa using List.find?_eq_none.1 hroots root hroot
    · apply (Result.mapM_eq_ok_iff.1 houtcomes).imp
      intro path outcome houtcome
      exact checkedAs_of_checkFile houtcome

namespace FileTree

/-- Documents that are found in order need no sorting. -/
theorem newDocumentsBelow_of_pairwise {tree : FileTree} {root : String} {paths : List String}
    (hbelow : tree.documentsBelow root = paths)
    (hsorted : paths.Pairwise fun first second => Path.isAtMost first second = true)
    (seen : List String) : tree.newDocumentsBelow seen root =
      paths.filter fun path => !seen.any (Path.same path) := by
  rw [newDocumentsBelow, hbelow]
  exact List.mergeSort_of_pairwise (hsorted.filter _)

/-- Below a single root, documents that are found in order are all listed. -/
theorem documents_singleton {tree : FileTree} {root : String} {paths : List String}
    (hbelow : tree.documentsBelow root = paths)
    (hsorted : paths.Pairwise fun first second => Path.isAtMost first second = true) :
    tree.documents [root] = paths := by
  rw [documents, documentsAfter, documentsAfter, List.append_nil,
    newDocumentsBelow_of_pairwise hbelow hsorted]
  simp

/-- A directory with a document that holds an object and a truth value, one that is cut off, one that
is not UTF-8, and one that is empty. -/
def mixed : FileTree :=
  let ascii (text : String) : List UInt8 := text.toList.map fun c => c.toNat.toUInt8
  ⟨[("conf", .directory
    [("a.neon", .file (ascii "when: 2024-01-15\nhttp:\n  frames: yes\n")),
      ("b.neon", .file (ascii "a: [1")), ("c.neon", .file [0x61, 0x3a, 0xff]),
      ("d.neon", .file [])])], []⟩

/-- The documents of the directory are found in the order of their names. -/
theorem documents_mixed :
    mixed.documents ["conf"] = ["conf/a.neon", "conf/b.neon", "conf/c.neon", "conf/d.neon"] :=
  documents_singleton (by decide +kernel) (by decide +kernel)

end FileTree

end NeonAudit
