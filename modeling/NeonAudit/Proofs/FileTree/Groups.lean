import Mathlib.Data.List.Pairwise
import NeonAudit.Proofs.FileTree.Permuted

/-!
# The documents below several roots

The documents are found in one group for each root. The group of a root is in strict order, and
holds the documents below it that are below no root before it. So each document is found once, in
the group of the first root that it is below, in whatever order the entries of directories are
read.
-/

namespace NeonAudit

namespace Path

/-- Paths are the same if their components are. -/
theorem same_iff {first second : String} :
    same first second = true ↔ components first = components second :=
  decide_eq_true_iff

/-- Sameness of paths goes both ways. -/
theorem same_comm (first second : String) : same first second = same second first := by
  rw [Bool.eq_iff_iff, same_iff, same_iff, eq_comm]

/-- One path stands before another, and they are not the same. -/
def IsBefore (first second : String) : Prop :=
  isAtMost first second = true ∧ same first second = false

/-- A path is in the list, written in one way or another. -/
def IsListed (paths : List String) (path : String) : Prop :=
  ∃ found ∈ paths, same path found = true

/-- What is in a list that is put together is in one of its parts. -/
theorem isListed_append {first rest : List String} {path : String} :
    IsListed (first ++ rest) path ↔ IsListed first path ∨ IsListed rest path := by
  simp only [IsListed, List.mem_append, or_and_right, exists_or]

end Path

namespace FileTree

open NeonAudit.Path

/-- The path is, written in one way or another, that of a document below the root. -/
def IsDocumentBelow (tree : FileTree) (root path : String) : Prop :=
  ∃ names, LeadsToDocument tree root names ∧ same path (joinAll root names) = true

/-- The documents below roots that are not among those seen before, in one group for each root. -/
def documentGroups (tree : FileTree) (seen : List String) : (roots : List String) →
    List (List String)
  | [] => []
  | root :: roots =>
    let found := tree.newDocumentsBelow seen root
    found :: documentGroups tree (seen ++ found) roots

/-- The documents are those of the groups, one group after another. -/
theorem flatten_documentGroups (tree : FileTree) (seen roots : List String) :
    (tree.documentGroups seen roots).flatten = tree.documentsAfter seen roots := by
  induction roots generalizing seen with
  | nil => rfl
  | cons root roots ih => rw [documentGroups, List.flatten_cons, ih, documentsAfter]

/-- There is one group for each root. -/
theorem length_documentGroups (tree : FileTree) (seen roots : List String) :
    (tree.documentGroups seen roots).length = roots.length := by
  induction roots generalizing seen with
  | nil => rfl
  | cons root roots ih => rw [documentGroups, List.length_cons, ih, List.length_cons]

/-- The new documents below a root are in order. -/
theorem sorted_newDocumentsBelow (tree : FileTree) (seen : List String) (root : String) :
    (tree.newDocumentsBelow seen root).Pairwise fun first second =>
      isAtMost first second = true :=
  @List.pairwise_mergeSort _ isAtMost (fun _ _ _ => isAtMost_trans) isAtMost_total _

/-- The new documents below a root are those of its documents that have not been seen. -/
theorem newDocumentsBelow_perm (tree : FileTree) (seen : List String) (root : String) :
    (tree.newDocumentsBelow seen root).Perm
      ((tree.documentsBelow root).filter fun path => !seen.any (same path)) :=
  List.mergeSort_perm _ _

/-- The new documents below a root are documents below it. -/
theorem mem_documentsBelow_of_new {tree : FileTree} {seen : List String} {root path : String}
    (h : path ∈ tree.newDocumentsBelow seen root) : path ∈ tree.documentsBelow root :=
  List.mem_of_mem_filter ((newDocumentsBelow_perm _ _ _).mem_iff.1 h)

/-- A document is below one of the roots. -/
theorem exists_mem_documentsBelow {tree : FileTree} {seen roots : List String} {path : String}
    (h : path ∈ tree.documentsAfter seen roots) :
    ∃ root ∈ roots, path ∈ tree.documentsBelow root := by
  induction roots generalizing seen with
  | nil => contradiction
  | cons root roots ih =>
    rw [documentsAfter] at h
    rcases List.mem_append.1 h with hfound | hlater
    · exact ⟨root, List.mem_cons_self, mem_documentsBelow_of_new hfound⟩
    · obtain ⟨root', hmem, hpath⟩ := ih hlater
      exact ⟨root', List.mem_cons_of_mem root hmem, hpath⟩

/-- Below a root that is no directory there are no documents. -/
theorem documentsBelow_eq_nil {tree : FileTree} {root : String}
    (h : tree.isDirectory root = false) : tree.documentsBelow root = [] := by
  unfold isDirectory at h
  unfold documentsBelow
  split
  · rename_i hroot
    rw [hroot] at h
    contradiction
  · rfl

/-- Roots that are no directories may be left out. -/
theorem documentsAfter_filter_isDirectory (tree : FileTree) (seen roots : List String) :
    tree.documentsAfter seen (roots.filter tree.isDirectory) = tree.documentsAfter seen roots := by
  induction roots generalizing seen with
  | nil => rfl
  | cons root roots ih =>
    rw [List.filter_cons]
    split
    · rw [documentsAfter, documentsAfter, ih]
    · rename_i hroot
      have hnew : tree.newDocumentsBelow seen root = [] := by
        rw [newDocumentsBelow, documentsBelow_eq_nil (Bool.eq_false_iff.2 hroot)]
        exact List.mergeSort_nil
      rw [ih, documentsAfter, hnew, List.append_nil]
      rfl

/-- Roots that are no directories add no documents. -/
theorem documents_filter_isDirectory (tree : FileTree) (roots : List String) :
    tree.documents (roots.filter tree.isDirectory) = tree.documents roots :=
  tree.documentsAfter_filter_isDirectory [] roots

section

variable {tree : FileTree} (h : tree.WellFormed) {seen : List String} {root path : String}
include h

/-- The path is that of a document below the root if it is in the list of them. -/
theorem WellFormed.isListed_documentsBelow :
    IsListed (tree.documentsBelow root) path ↔ tree.IsDocumentBelow root path := by
  constructor
  · rintro ⟨found, hmem, hsame⟩
    obtain ⟨names, hnames, rfl⟩ := h.mem_documentsBelow_iff.1 hmem
    exact ⟨names, hnames, hsame⟩
  · rintro ⟨names, hnames, hsame⟩
    exact ⟨_, h.mem_documentsBelow_iff.2 ⟨names, hnames, rfl⟩, hsame⟩

/-- A path is new if it is that of a document below the root and has not been seen. -/
theorem WellFormed.isListed_newDocumentsBelow :
    IsListed (tree.newDocumentsBelow seen root) path ↔
      tree.IsDocumentBelow root path ∧ ¬IsListed seen path := by
  have hseen {found : String} (hsame : same path found = true) :
      (!seen.any (same found)) = true ↔ ¬IsListed seen path := by
    rw [Bool.not_eq_true', ← Bool.not_eq_true, List.any_eq_true, IsListed]
    simp only [same_iff] at hsame ⊢
    rw [hsame]
  rw [← h.isListed_documentsBelow]
  constructor
  · rintro ⟨found, hmem, hsame⟩
    obtain ⟨hbelow, hnew⟩ := List.mem_filter.1 ((newDocumentsBelow_perm _ _ _).mem_iff.1 hmem)
    exact ⟨⟨found, hbelow, hsame⟩, (hseen hsame).1 hnew⟩
  · rintro ⟨⟨found, hbelow, hsame⟩, hnew⟩
    exact ⟨found, (newDocumentsBelow_perm _ _ _).mem_iff.2
      (List.mem_filter.2 ⟨hbelow, (hseen hsame).2 hnew⟩), hsame⟩

/-- The new documents below a root are in strict order. -/
theorem WellFormed.pairwise_newDocumentsBelow :
    (tree.newDocumentsBelow seen root).Pairwise IsBefore := by
  refine (tree.sorted_newDocumentsBelow seen root).and ?_
  exact (tree.newDocumentsBelow_perm seen root).symm.pairwise (h.pairwise_documentsBelow.filter _)
    fun {first second} hne => (same_comm second first).trans hne

/-- Each group is in strict order. -/
theorem WellFormed.pairwise_of_mem_documentGroups {roots group : List String}
    (hgroup : group ∈ tree.documentGroups seen roots) : group.Pairwise IsBefore := by
  induction roots generalizing seen with
  | nil => contradiction
  | cons root roots ih =>
    rcases List.mem_cons.1 hgroup with rfl | hgroup
    · exact h.pairwise_newDocumentsBelow
    · exact ih hgroup

/-- The documents below roots are new, and no two of them have the same path. -/
theorem WellFormed.pairwise_documentsAfter (roots : List String) :
    (tree.documentsAfter seen roots).Pairwise (fun first second => same first second = false) ∧
      ∀ path ∈ tree.documentsAfter seen roots, ¬IsListed seen path := by
  induction roots generalizing seen with
  | nil => exact ⟨.nil, fun _ hmem => absurd hmem List.not_mem_nil⟩
  | cons root roots ih =>
    rw [documentsAfter]
    obtain ⟨hpairwise, hnew⟩ := @ih (seen ++ tree.newDocumentsBelow seen root)
    simp only [isListed_append, not_or] at hnew
    refine ⟨List.pairwise_append.2
      ⟨h.pairwise_newDocumentsBelow.imp And.right, hpairwise, ?_⟩, ?_⟩
    · intro first hfirst second hsecond
      rw [Bool.eq_false_iff]
      intro hsame
      exact (hnew second hsecond).2 ⟨first, hfirst, (same_comm second first).trans hsame⟩
    · intro path hpath
      rcases List.mem_append.1 hpath with hfound | hlater
      · exact (h.isListed_newDocumentsBelow.1 ⟨path, hfound, same_iff.2 rfl⟩).2
      · exact (hnew path hlater).1

/-- The documents below roots are the documents below any of them that have not been seen. -/
theorem WellFormed.isListed_documentsAfter {roots : List String} :
    IsListed (tree.documentsAfter seen roots) path ↔
      (∃ root ∈ roots, tree.IsDocumentBelow root path) ∧ ¬IsListed seen path := by
  induction roots generalizing seen with
  | nil => simp [documentsAfter, IsListed]
  | cons root roots ih =>
    rw [documentsAfter, isListed_append, ih, isListed_append, h.isListed_newDocumentsBelow,
      List.exists_mem_cons_iff]
    tauto

/-- The group of a root holds the documents below it that have not been seen and are below no root
before it. -/
theorem WellFormed.isListed_documentGroups {roots : List String} (i : Nat) :
    (∃ group ∈ (tree.documentGroups seen roots)[i]?, IsListed group path) ↔
      (∃ root ∈ roots[i]?, tree.IsDocumentBelow root path) ∧ ¬IsListed seen path ∧
        ∀ root ∈ roots.take i, ¬tree.IsDocumentBelow root path := by
  induction roots generalizing seen i with
  | nil => simp [documentGroups]
  | cons root roots ih =>
    rw [documentGroups]
    cases i with
    | zero => simp [h.isListed_newDocumentsBelow]
    | succ i =>
      rw [List.getElem?_cons_succ, List.getElem?_cons_succ, ih, isListed_append,
        h.isListed_newDocumentsBelow, List.take_succ_cons, List.forall_mem_cons]
      tauto

/-- The new documents below a root do not depend on the order of entries. -/
theorem WellFormed.newDocumentsBelow_eq {tree' : FileTree} (hpermuted : tree.Permuted tree') :
    tree'.newDocumentsBelow seen root = tree.newDocumentsBelow seen root := by
  have hperm := hpermuted.documentsBelow h root
  refine List.Perm.eq_of_pairwise (fun first second hfirst hsecond hle hge => ?_)
    (sorted_newDocumentsBelow _ _ _) (sorted_newDocumentsBelow _ _ _) ?_
  · by_contra hne
    have hsymm : Std.Symm fun first second => same first second = false :=
      ⟨fun first second hne => (same_comm second first).trans hne⟩
    have hdistinct := h.pairwise_documentsBelow.forall
      (hperm.mem_iff.2 (mem_documentsBelow_of_new hfirst)) (mem_documentsBelow_of_new hsecond) hne
    rw [same_of_isAtMost hle hge] at hdistinct
    contradiction
  · exact (newDocumentsBelow_perm _ _ _).trans
      ((hperm.symm.filter _).trans (newDocumentsBelow_perm _ _ _).symm)

/-- The documents below roots do not depend on the order of entries. -/
theorem WellFormed.documentsAfter_eq {tree' : FileTree} (hpermuted : tree.Permuted tree')
    (roots : List String) : tree'.documentsAfter seen roots = tree.documentsAfter seen roots := by
  induction roots generalizing seen with
  | nil => rfl
  | cons root roots ih =>
    rw [documentsAfter, documentsAfter, h.newDocumentsBelow_eq hpermuted, ih]

/-- The documents below roots are found in one group for each root, and each group is in strict
order. No two of them have the same path. They are the documents below any root, in the group of the
first root that they are below, and the order of entries in directories does not matter. -/
theorem WellFormed.exists_documentGroups (roots : List String) :
    ∃ groups : List (List String), tree.documents roots = groups.flatten ∧
      groups.length = roots.length ∧ (∀ group ∈ groups, group.Pairwise IsBefore) ∧
        (tree.documents roots).Pairwise (fun first second => same first second = false) ∧
        (∀ path, IsListed (tree.documents roots) path ↔
          ∃ root ∈ roots, tree.IsDocumentBelow root path) ∧
        (∀ i path, (∃ group ∈ groups[i]?, IsListed group path) ↔
          (∃ root ∈ roots[i]?, tree.IsDocumentBelow root path) ∧
            ∀ root ∈ roots.take i, ¬tree.IsDocumentBelow root path) ∧
        ∀ tree', tree.Permuted tree' → tree'.documents roots = tree.documents roots := by
  have hunseen (path : String) : ¬IsListed [] path := by simp [IsListed]
  refine ⟨tree.documentGroups [] roots, (tree.flatten_documentGroups [] roots).symm,
    tree.length_documentGroups [] roots, fun group => h.pairwise_of_mem_documentGroups,
    (h.pairwise_documentsAfter roots).1, ?_, ?_,
    fun tree' hpermuted => h.documentsAfter_eq hpermuted roots⟩
  · intro path
    rw [documents, h.isListed_documentsAfter, and_iff_left (hunseen path)]
  · intro i path
    rw [h.isListed_documentGroups, and_iff_right (hunseen path)]

end

/-- A directory with a document, links to a file and to a directory, and a directory with the name
of a document. -/
def linked : FileTree :=
  ⟨[("conf", .directory [("b.neon", .link "a.neon"), ("a.neon", .file []),
    ("loop.neon", .link "."), ("x.neon", .directory [("c.neon", .file [])])])], []⟩

/-- The same directory, read in another order. -/
def relinked : FileTree :=
  ⟨[("conf", .directory [("a.neon", .file []), ("b.neon", .link "a.neon"),
    ("loop.neon", .link "."), ("x.neon", .directory [("c.neon", .file [])])])], []⟩

/-- The names in the directory are different names of entries. -/
theorem wellFormed_linked : linked.WellFormed := by
  have hinner : (Entry.directory [("c.neon", .file [])]).WellFormed :=
    .directory (by decide) (by decide) (List.forall_mem_singleton.2 .file)
  have hconf : (Entry.directory [("b.neon", .link "a.neon"), ("a.neon", .file []),
      ("loop.neon", .link "."), ("x.neon", .directory [("c.neon", .file [])])]).WellFormed := by
    refine .directory (by decide) (by decide) ?_
    simp only [List.forall_mem_cons]
    exact ⟨.link, .file, .link, hinner, fun _ hmem => absurd hmem List.not_mem_nil⟩
  exact .directory (by decide) (by decide) (List.forall_mem_singleton.2 hconf)

/-- The document in the inner directory is in the group of the first root, and the documents are
those of the directory read in another order. -/
theorem exists_documentGroups_linked :
    ∃ groups : List (List String),
      linked.documents ["conf/x.neon", "conf"] = groups.flatten ∧ groups.length = 2 ∧
        (∃ group ∈ groups[0]?, IsListed group "conf/x.neon//c.neon") ∧
          relinked.documents ["conf/x.neon", "conf"] =
            linked.documents ["conf/x.neon", "conf"] := by
  obtain ⟨groups, hflatten, hlength, -, -, -, hgroups, hpermuted⟩ :=
    wellFormed_linked.exists_documentGroups ["conf/x.neon", "conf"]
  have hroot : linked.entry "conf/x.neon" = .ok (.directory [("c.neon", .file [])]) := rfl
  have hbelow : linked.IsDocumentBelow "conf/x.neon" "conf/x.neon//c.neon" :=
    ⟨["c.neon"], .file hroot rfl (by decide) (by decide), by decide⟩
  have hrelinked : linked.Permuted relinked :=
    ⟨@Entry.Permuted.inside [] [] _ _ _ (.here (.swap _ _ _)), rfl⟩
  exact ⟨groups, hflatten, hlength, (hgroups 0 _).2 ⟨⟨_, rfl, hbelow⟩, by simp⟩,
    hpermuted relinked hrelinked⟩

end FileTree

end NeonAudit
