import Mathlib.Data.List.Nodup
import NeonAudit.FileTree.Discovery
import NeonAudit.Proofs.FileTree.Walk

/-!
# The documents below a root

The leaves of an entry are the entries below it that are no directories, each told by the names
that lead there. In a well-formed tree no two leaves of a directory have the same names, and the
documents below a root are its paths joined with the names of those leaves that are documents. A
leaf that is a regular file is one whenever its path is not too long, and a link if its path leads
to a regular file.
-/

namespace NeonAudit.FileTree

/-- What stands in the directories of the entry are entries with different names. -/
inductive Entry.WellFormed : Entry → Prop
  | file {bytes} : WellFormed (.file bytes)
  | link {target} : WellFormed (.link target)
  | directory {entries} : (Entries.keys entries).Nodup → (∀ entry ∈ entries, IsName entry.1) →
      (∀ entry ∈ entries, WellFormed entry.2) → WellFormed (.directory entries)

/-- The directories of the tree hold entries with different names. -/
def WellFormed (tree : FileTree) : Prop :=
  (Entry.directory tree.entries).WellFormed

/-- The names that lead down a well-formed tree are names of entries, and lead to well-formed
ones. -/
theorem Entry.WellFormed.of_at? {entry found : Entry} (h : entry.WellFormed) {names : List String}
    (hfound : entry.at? names = some found) :
    (∀ name ∈ names, IsName name) ∧ found.WellFormed := by
  induction names generalizing entry with
  | nil =>
    obtain rfl := Option.some.inj hfound
    exact ⟨fun _ hmem => absurd hmem List.not_mem_nil, h⟩
  | cons name names ih =>
    obtain ⟨entries, below, rfl, hget, hbelow⟩ := Entry.at?_cons_eq_some_iff.1 hfound
    have hmem := Entries.mem_of_get? hget
    cases h with
    | directory _ hnames hentries =>
      obtain ⟨hrest, hwell⟩ := ih (hentries _ hmem) hbelow
      exact ⟨List.forall_mem_cons.2 ⟨hnames _ hmem, hrest⟩, hwell⟩

mutual

/-- The names that lead from an entry to those below it that are no directories. -/
def Entry.leaves : Entry → List (List String)
  | .directory entries => leavesAmong entries
  | .file _ => [[]]
  | .link _ => [[]]

/-- The names that lead from a directory to entries below it that are no directories. -/
def leavesAmong : List (String × Entry) → List (List String)
  | [] => []
  | (name, entry) :: entries => entry.leaves.map (name :: ·) ++ leavesAmong entries

end

/-- The leaves among entries are those of each entry, after its name. -/
theorem leavesAmong_eq_flatMap (entries : List (String × Entry)) :
    leavesAmong entries = entries.flatMap fun entry => entry.2.leaves.map (entry.1 :: ·) := by
  induction entries with
  | nil => rfl
  | cons entry entries ih => rw [leavesAmong, ih, List.flatMap_cons]

/-- The documents among entries are those at each entry. -/
theorem documentsAmong_eq_flatMap (tree : FileTree) (directory : String)
    (entries : List (String × Entry)) :
    documentsAmong tree directory entries = entries.flatMap fun entry =>
      documentsAt tree (Path.join directory entry.1) entry.1 entry.2 := by
  induction entries with
  | nil => rfl
  | cons entry entries ih => rw [documentsAmong, ih, List.flatMap_cons]

/-- The name of a leaf among entries is not left out. -/
theorem ne_nil_of_mem_leavesAmong {entries : List (String × Entry)} {names : List String}
    (h : names ∈ leavesAmong entries) : names ≠ [] := by
  rw [leavesAmong_eq_flatMap] at h
  obtain ⟨entry, -, hmem⟩ := List.mem_flatMap.1 h
  obtain ⟨rest, -, rfl⟩ := List.mem_map.1 hmem
  exact List.cons_ne_nil _ _

/-- Names lead to a leaf exactly if they lead to an entry that is no directory. -/
theorem Entry.WellFormed.mem_leaves_iff {entry : Entry} (h : entry.WellFormed)
    {names : List String} : names ∈ entry.leaves ↔
      ∃ leaf, entry.at? names = some leaf ∧ leaf.isDirectory = false := by
  induction h generalizing names with
  | @file bytes =>
    rw [Entry.leaves, List.mem_singleton]
    cases names with
    | nil => simp [Entry.at?, isDirectory]
    | cons name names => simp [Entry.at?]
  | @link target =>
    rw [Entry.leaves, List.mem_singleton]
    cases names with
    | nil => simp [Entry.at?, isDirectory]
    | cons name names => simp [Entry.at?]
  | @directory entries hkeys _ _ ih =>
    rw [Entry.leaves, leavesAmong_eq_flatMap, List.mem_flatMap]
    constructor
    · rintro ⟨entry, hmem, hnames⟩
      obtain ⟨rest, hrest, rfl⟩ := List.mem_map.1 hnames
      obtain ⟨leaf, hleaf, hdirectory⟩ := (ih entry hmem).1 hrest
      have hget := (Entries.get?_eq_some_iff hkeys).2 hmem
      exact ⟨leaf, Entry.at?_cons_eq_some_iff.2 ⟨entries, _, rfl, hget, hleaf⟩, hdirectory⟩
    · rintro ⟨leaf, hleaf, hdirectory⟩
      cases names with
      | nil =>
        obtain rfl := Option.some.inj hleaf
        contradiction
      | cons name rest =>
        obtain ⟨_, below, ⟨⟩, hget, hbelow⟩ := Entry.at?_cons_eq_some_iff.1 hleaf
        have hmem := Entries.mem_of_get? hget
        exact ⟨_, hmem, List.mem_map.2 ⟨rest, (ih _ hmem).2 ⟨leaf, hbelow, hdirectory⟩, rfl⟩⟩

/-- No two leaves have the same names. -/
theorem Entry.WellFormed.nodup_leaves {entry : Entry} (h : entry.WellFormed) :
    entry.leaves.Nodup := by
  induction h with
  | file => exact List.nodup_singleton _
  | link => exact List.nodup_singleton _
  | directory hkeys _ _ ih =>
    rw [Entry.leaves, leavesAmong_eq_flatMap, List.nodup_flatMap]
    refine ⟨fun entry hmem => (ih entry hmem).map fun _ _ heq => (List.cons.inj heq).2, ?_⟩
    refine (List.pairwise_map.1 hkeys).imp fun {first second} hne => ?_
    intro names hfirst hsecond
    obtain ⟨_, -, rfl⟩ := List.mem_map.1 hfirst
    obtain ⟨_, -, heq⟩ := List.mem_map.1 hsecond
    exact hne (List.cons.inj heq).1.symm

/-- Whether names lead from the end of a path to a document. -/
def isDocumentAt (tree : FileTree) (base : String) (names : List String) : Bool :=
  tree.isFile (Path.joinAll base names) && names.getLast?.any isDocumentName

/-- A leaf of a directory is a document if its path is one. -/
theorem filter_isDocumentAt_singleton (tree : FileTree) (base name : String) :
    (([[]].map (name :: ·)).filter (tree.isDocumentAt base)).map (Path.joinAll base) =
      if tree.isFile (Path.join base name) && isDocumentName name then [Path.join base name]
      else [] := by
  have hdocument : tree.isDocumentAt base [name] =
      (tree.isFile (Path.join base name) && isDocumentName name) := rfl
  rw [List.map_singleton, List.filter_singleton, hdocument]
  cases tree.isFile (Path.join base name) && isDocumentName name <;> rfl

/-- The documents among entries are those of their leaves that are documents, if that holds at each
entry. -/
theorem documentsAmong_eq_of {tree : FileTree} {entries : List (String × Entry)}
    (h : ∀ entry ∈ entries, ∀ base name, documentsAt tree (Path.join base name) name entry.2 =
      ((entry.2.leaves.map (name :: ·)).filter (tree.isDocumentAt base)).map (Path.joinAll base))
    (directory : String) :
    documentsAmong tree directory entries =
      ((leavesAmong entries).filter (tree.isDocumentAt directory)).map
        (Path.joinAll directory) := by
  rw [documentsAmong_eq_flatMap, leavesAmong_eq_flatMap, List.filter_flatMap, List.map_flatMap]
  exact List.flatMap_congr fun entry hmem => h entry hmem directory entry.1

/-- The documents at an entry are those of its leaves that are documents. -/
theorem Entry.WellFormed.documentsAt_eq {entry : Entry} (h : entry.WellFormed) (tree : FileTree)
    (base name : String) :
    documentsAt tree (Path.join base name) name entry =
      ((entry.leaves.map (name :: ·)).filter (tree.isDocumentAt base)).map
        (Path.joinAll base) := by
  induction h generalizing base name with
  | file => exact (tree.filter_isDocumentAt_singleton base name).symm
  | link => exact (tree.filter_isDocumentAt_singleton base name).symm
  | @directory entries _ _ _ ih =>
    have hsame : (leavesAmong entries).filter (tree.isDocumentAt (Path.join base name)) =
        (leavesAmong entries).filter (tree.isDocumentAt base ∘ (name :: ·)) := by
      refine List.filter_congr fun names hnames => ?_
      obtain ⟨next, rest, rfl⟩ :=
        List.exists_cons_of_ne_nil (ne_nil_of_mem_leavesAmong hnames)
      rw [Function.comp_apply, isDocumentAt, isDocumentAt, List.getLast?_cons_cons]
      rfl
    rw [documentsAt, documentsAmong_eq_of ih, hsame, Entry.leaves, List.filter_map,
      List.map_map]
    rfl

/-- The documents among entries are those of their leaves that are documents. -/
theorem Entry.WellFormed.documentsAmong_eq {entries : List (String × Entry)}
    (h : (Entry.directory entries).WellFormed) (tree : FileTree) (directory : String) :
    documentsAmong tree directory entries =
      ((leavesAmong entries).filter (tree.isDocumentAt directory)).map
        (Path.joinAll directory) := by
  cases h with
  | directory _ _ hentries =>
    exact documentsAmong_eq_of (fun entry hmem => (hentries entry hmem).documentsAt_eq tree)
      directory

/-- Names lead from a root to a document: from its directory through directories, none of them
reached by a link, to an entry with the name of a document. The entry is a regular file whose path
is not too long, or a link whose path leads to a regular file. -/
inductive LeadsToDocument (tree : FileTree) (root : String) (names : List String) : Prop
  | file {entries bytes} : tree.entry root = .ok (.directory entries) →
      (Entry.directory entries).at? names = some (.file bytes) →
        names.getLast?.any isDocumentName = true →
          (Path.joinAll root names).utf8ByteSize ≤ maxPathBytes → LeadsToDocument tree root names
  | link {entries target} : tree.entry root = .ok (.directory entries) →
      (Entry.directory entries).at? names = some (.link target) →
        names.getLast?.any isDocumentName = true →
          tree.isFile (Path.joinAll root names) = true → LeadsToDocument tree root names

/-- Names that lead to a document lead to an entry below the directory of the root, and the last of
them is the name of a document. -/
theorem LeadsToDocument.exists_leaf {tree : FileTree} {root : String} {names : List String}
    (h : LeadsToDocument tree root names) : ∃ entries leaf,
      tree.entry root = .ok (.directory entries) ∧
        (Entry.directory entries).at? names = some leaf ∧
          names.getLast?.any isDocumentName = true := by
  cases h with
  | file hroot hleaf hlast _ => exact ⟨_, _, hroot, hleaf, hlast⟩
  | link hroot hleaf hlast _ => exact ⟨_, _, hroot, hleaf, hlast⟩

section Below

variable {tree : FileTree} (h : tree.WellFormed) {root : String}
include h

/-- The directory to which a root leads is well-formed. -/
theorem WellFormed.of_entry {entry : Entry} (hroot : tree.entry root = .ok entry) :
    entry.WellFormed := by
  obtain ⟨location, -, hfound⟩ := entry_eq_ok_iff.1 hroot
  exact (h.of_at? hfound).2

/-- The path of a regular file leads to it unless it is too long. -/
theorem WellFormed.isFile_joinAll_iff {entries : List (String × Entry)} {names : List String}
    {bytes : List UInt8} (hroot : tree.entry root = .ok (.directory entries))
    (hfile : (Entry.directory entries).at? names = some (.file bytes)) :
    tree.isFile (Path.joinAll root names) = true ↔
      (Path.joinAll root names).utf8ByteSize ≤ maxPathBytes := by
  obtain ⟨location, hlocate, hlocation⟩ := entry_eq_ok_iff.1 hroot
  have hnames := ((h.of_entry hroot).of_at? hfile).1
  have hne : names ≠ [] := by
    rintro rfl
    cases hfile
  constructor
  · intro hisFile
    unfold isFile at hisFile
    split at hisFile
    · rename_i entry hentry
      obtain ⟨_, hpath, -⟩ := entry_eq_ok_iff.1 hentry
      exact (locate_eq_ok_iff.1 hpath).2.2.1
    · contradiction
  · intro hsize
    obtain ⟨steps, left, hsteps, hlead⟩ := exists_walks_of_joinAll hlocate hnames hne
    have hdown : Walks tree left location (names.map .down) left (location ++ names) :=
      (walks_down_iff hlocation hfile rfl hnames).2 ⟨rfl, rfl⟩
    have hwalks := hlead.append hdown
    rw [← hsteps] at hwalks
    have hpath : tree.locate (Path.joinAll root names) = .ok (location ++ names) :=
      locate_eq_ok_iff.2 ⟨nul_notMem_joinAll hnames (locate_eq_ok_iff.1 hlocate).1,
        joinAll_ne_empty hnames hne root, hsize, left, hwalks⟩
    have hfound : tree.at? (location ++ names) = some (.file bytes) := by
      rw [at?_append, hlocation]
      exact hfile
    rw [isFile, entry_eq_ok_iff.2 ⟨_, hpath, hfound⟩]

/-- Names lead to a document exactly if they are those of a leaf below the root that is one. -/
theorem WellFormed.leadsToDocument_iff {names : List String} : LeadsToDocument tree root names ↔
    ∃ entries, tree.entry root = .ok (.directory entries) ∧ names ∈ leavesAmong entries ∧
      tree.isDocumentAt root names = true := by
  have hleaf {entries : List (String × Entry)}
      (hroot : tree.entry root = .ok (.directory entries)) :
      names ∈ leavesAmong entries ↔ _ := (h.of_entry hroot).mem_leaves_iff
  constructor
  · rintro (⟨hroot, hat, hname, hsize⟩ | ⟨hroot, hat, hname, hfile⟩)
    · have hfile := (h.isFile_joinAll_iff hroot hat).2 hsize
      exact ⟨_, hroot, (hleaf hroot).2 ⟨_, hat, rfl⟩, Bool.and_eq_true_iff.2 ⟨hfile, hname⟩⟩
    · exact ⟨_, hroot, (hleaf hroot).2 ⟨_, hat, rfl⟩, Bool.and_eq_true_iff.2 ⟨hfile, hname⟩⟩
  · rintro ⟨entries, hroot, hmem, hdocument⟩
    obtain ⟨leaf, hat, hdirectory⟩ := (hleaf hroot).1 hmem
    obtain ⟨hfile, hname⟩ := Bool.and_eq_true_iff.1 hdocument
    cases leaf with
    | file bytes => exact .file hroot hat hname ((h.isFile_joinAll_iff hroot hat).1 hfile)
    | link target => exact .link hroot hat hname hfile
    | directory below => contradiction

/-- The names that lead to a document are names of entries. -/
theorem WellFormed.isName_of_leadsToDocument {names : List String}
    (hnames : LeadsToDocument tree root names) : ∀ name ∈ names, IsName name := by
  obtain ⟨entries, leaf, hroot, hat, -⟩ := hnames.exists_leaf
  exact ((h.of_entry hroot).of_at? hat).1

/-- The documents below a root are its paths joined with the names that lead to one. -/
theorem WellFormed.mem_documentsBelow_iff {path : String} : path ∈ tree.documentsBelow root ↔
    ∃ names, LeadsToDocument tree root names ∧ path = Path.joinAll root names := by
  simp only [h.leadsToDocument_iff]
  unfold documentsBelow
  split
  · rename_i entries hroot
    rw [(h.of_entry hroot).documentsAmong_eq, List.mem_map]
    constructor
    · rintro ⟨names, hmem, rfl⟩
      exact ⟨names, ⟨entries, hroot, List.mem_filter.1 hmem⟩, rfl⟩
    · rintro ⟨names, ⟨_, hentries, hmem⟩, rfl⟩
      cases hroot.symm.trans hentries
      exact ⟨names, List.mem_filter.2 hmem, rfl⟩
  · rename_i hnone
    refine iff_of_false List.not_mem_nil ?_
    rintro ⟨names, ⟨entries, hentries, -⟩, -⟩
    exact hnone entries hentries

/-- No two documents below a root have the same path. -/
theorem WellFormed.pairwise_documentsBelow :
    (tree.documentsBelow root).Pairwise fun first second => Path.same first second = false := by
  unfold documentsBelow
  split
  · rename_i entries hroot
    have hwell := h.of_entry hroot
    have hname {names : List String} (hmem : names ∈ leavesAmong entries) :
        ∀ name ∈ names, IsName name := by
      obtain ⟨leaf, hat, -⟩ := hwell.mem_leaves_iff.1 hmem
      exact (hwell.of_at? hat).1
    have hnodup := (hwell.nodup_leaves : (leavesAmong entries).Nodup).filter
      (tree.isDocumentAt root)
    rw [hwell.documentsAmong_eq, List.pairwise_map]
    refine hnodup.imp_of_mem fun {first second} hfirst hsecond hne => ?_
    exact decide_eq_false fun heq => hne (joinAll_injective (hname (List.mem_of_mem_filter hfirst))
      (hname (List.mem_of_mem_filter hsecond)) heq)
  · exact .nil

end Below

end NeonAudit.FileTree
