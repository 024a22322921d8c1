import NeonAudit.Proofs.FileTree.Leaves

/-!
# Permuted file trees

The entries of the directories of a file tree may be in any order. Paths lead to the same places in
a tree with its entries permuted, since names are looked up, and the leaves are the same up to
their order. So the documents below a root are permuted too.
-/

namespace NeonAudit.FileTree

/-- The entries of directories at or below the entry are permuted, those of one directory after
those of another. -/
inductive Entry.Permuted : Entry → Entry → Prop
  | refl {entry} : Permuted entry entry
  | trans {first second third} : Permuted first second → Permuted second third →
      Permuted first third
  | here {entries entries'} : entries.Perm entries' →
      Permuted (.directory entries) (.directory entries')
  | inside {front back name entry entry'} : Permuted entry entry' →
      Permuted (.directory (front ++ (name, entry) :: back))
        (.directory (front ++ (name, entry') :: back))

/-- The entries of directories of the tree are permuted. -/
structure Permuted (tree tree' : FileTree) : Prop where
  /-- The directory that contains all others has its entries permuted. -/
  entries : (Entry.directory tree.entries).Permuted (.directory tree'.entries)
  /-- Relative paths start in the same directory. -/
  current : tree'.current = tree.current

namespace Entry.Permuted

variable {entry entry' : Entry}

/-- What is permuted can be permuted back. -/
theorem symm (h : entry.Permuted entry') : entry'.Permuted entry := by
  induction h with
  | refl => exact .refl
  | trans _ _ ih ih' => exact .trans ih' ih
  | here hperm => exact .here hperm.symm
  | inside _ ih => exact .inside ih

/-- Only directories are changed, and they stay directories. -/
theorem eq_or_directory (h : entry.Permuted entry') :
    entry' = entry ∨ ∃ entries entries', entry = .directory entries ∧
      entry' = .directory entries' := by
  induction h with
  | refl => exact .inl rfl
  | trans _ _ ih ih' =>
    rcases ih with rfl | ⟨entries, middle, rfl, rfl⟩
    · exact ih'
    · rcases ih' with rfl | ⟨_, entries', ⟨⟩, rfl⟩
      · exact .inr ⟨entries, middle, rfl, rfl⟩
      · exact .inr ⟨entries, entries', rfl, rfl⟩
  | here _ => exact .inr ⟨_, _, rfl, rfl⟩
  | inside _ _ => exact .inr ⟨_, _, rfl, rfl⟩

/-- A permuted directory is a directory. -/
theorem exists_directory {entries : List (String × Entry)}
    (h : (Entry.directory entries).Permuted entry') : ∃ entries', entry' = .directory entries' := by
  rcases h.eq_or_directory with rfl | ⟨_, entries', -, rfl⟩
  · exact ⟨entries, rfl⟩
  · exact ⟨entries', rfl⟩

/-- What is no directory is left as it is. -/
theorem eq_of_isDirectory (h : entry.Permuted entry') (hentry : entry.isDirectory = false) :
    entry' = entry := by
  rcases h.eq_or_directory with heq | ⟨entries, entries', rfl, -⟩
  · exact heq
  · contradiction

/-- Permuting makes no link of an entry. -/
theorem isLink_eq (h : entry.Permuted entry') : entry'.isLink = entry.isLink := by
  rcases h.eq_or_directory with rfl | ⟨entries, entries', rfl, rfl⟩ <;> rfl

/-- A well-formed entry is well-formed when it is permuted. -/
theorem wellFormed (h : entry.Permuted entry') (hentry : entry.WellFormed) :
    entry'.WellFormed := by
  induction h with
  | refl => exact hentry
  | trans _ _ ih ih' => exact ih' (ih hentry)
  | here hperm =>
    cases hentry with
    | directory hkeys hnames hentries =>
      exact .directory ((hperm.map Prod.fst).nodup hkeys)
        (fun entry hmem => hnames entry (hperm.mem_iff.2 hmem))
        (fun entry hmem => hentries entry (hperm.mem_iff.2 hmem))
  | @inside front back name entry entry' _ ih =>
    cases hentry with
    | directory hkeys hnames hentries =>
      rw [List.forall_mem_append, List.forall_mem_cons] at hnames hentries
      refine .directory ?_ ?_ ?_
      · simpa [Entries.keys] using hkeys
      · exact List.forall_mem_append.2 ⟨hnames.1, List.forall_mem_cons.2 hnames.2⟩
      · exact List.forall_mem_append.2 ⟨hentries.1,
          List.forall_mem_cons.2 ⟨ih hentries.2.1, hentries.2.2⟩⟩

/-- Names lead to a permuted entry when they lead to one. -/
theorem exists_at? (h : entry.Permuted entry') (hentry : entry.WellFormed) {names : List String}
    {found : Entry} (hfound : entry.at? names = some found) :
    ∃ found', entry'.at? names = some found' ∧ found.Permuted found' := by
  induction h generalizing names found with
  | refl => exact ⟨found, hfound, .refl⟩
  | trans hfirst _ ih ih' =>
    obtain ⟨middle, hmiddle, hpermuted⟩ := ih hentry hfound
    obtain ⟨found', hfound', hpermuted'⟩ := ih' (hfirst.wellFormed hentry) hmiddle
    exact ⟨found', hfound', .trans hpermuted hpermuted'⟩
  | @here entries entries' hperm =>
    cases names with
    | nil =>
      obtain rfl := Option.some.inj hfound
      exact ⟨_, rfl, .here hperm⟩
    | cons name names =>
      obtain ⟨_, below, ⟨⟩, hget, hbelow⟩ := Entry.at?_cons_eq_some_iff.1 hfound
      cases (here hperm).wellFormed hentry with
      | directory hkeys _ _ =>
        have hget' := (Entries.get?_eq_some_iff hkeys).2
          (hperm.mem_iff.1 (Entries.mem_of_get? hget))
        exact ⟨found, Entry.at?_cons_eq_some_iff.2 ⟨_, below, rfl, hget', hbelow⟩, .refl⟩
  | @inside front back key entry entry' hpermuted ih =>
    cases names with
    | nil =>
      obtain rfl := Option.some.inj hfound
      exact ⟨_, rfl, .inside hpermuted⟩
    | cons name names =>
      obtain ⟨_, below, ⟨⟩, hget, hbelow⟩ := Entry.at?_cons_eq_some_iff.1 hfound
      cases (inside hpermuted).wellFormed hentry with
      | directory hkeys _ _ =>
        have hlead {below' : Entry} (hmem : (name, below') ∈ front ++ (key, entry') :: back)
            {found' : Entry} (hbelow' : below'.at? names = some found') :
            (Entry.directory (front ++ (key, entry') :: back)).at? (name :: names) =
              some found' :=
          Entry.at?_cons_eq_some_iff.2
            ⟨_, below', rfl, (Entries.get?_eq_some_iff hkeys).2 hmem, hbelow'⟩
        rcases List.mem_append.1 (Entries.mem_of_get? hget) with hfront | hback
        · exact ⟨found, hlead (List.mem_append_left _ hfront) hbelow, .refl⟩
        · rcases List.mem_cons.1 hback with heq | hback
          · obtain ⟨rfl, rfl⟩ := Prod.mk.inj heq
            cases hentry with
            | directory _ _ hentries =>
              obtain ⟨found', hfound', hpermuted'⟩ :=
                ih (hentries _ (List.mem_append_right _ List.mem_cons_self)) hbelow
              exact ⟨found', hlead (List.mem_append_right _ List.mem_cons_self) hfound',
                hpermuted'⟩
          · exact ⟨found, hlead (List.mem_append_right _ (List.mem_cons_of_mem _ hback)) hbelow,
              .refl⟩

/-- The leaves of a permuted entry are permuted. -/
theorem leaves (h : entry.Permuted entry') : entry.leaves.Perm entry'.leaves := by
  induction h with
  | refl => exact .refl _
  | trans _ _ ih ih' => exact ih.trans ih'
  | here hperm =>
    rw [Entry.leaves, Entry.leaves, leavesAmong_eq_flatMap, leavesAmong_eq_flatMap]
    exact hperm.flatMap_right _
  | @inside front back name entry entry' _ ih =>
    rw [Entry.leaves, Entry.leaves, leavesAmong_eq_flatMap, leavesAmong_eq_flatMap,
      List.flatMap_append, List.flatMap_append, List.flatMap_cons, List.flatMap_cons]
    exact ((ih.map (name :: ·)).append_right _).append_left _

end Entry.Permuted

namespace Permuted

variable {tree tree' : FileTree}

/-- What is permuted can be permuted back. -/
theorem symm (h : tree.Permuted tree') : tree'.Permuted tree :=
  ⟨h.entries.symm, h.current.symm⟩

/-- A well-formed tree is well-formed when it is permuted. -/
theorem wellFormed (h : tree.Permuted tree') (htree : tree.WellFormed) : tree'.WellFormed :=
  h.entries.wellFormed htree

/-- A location holds a permuted entry if it holds an entry. -/
theorem exists_at? (h : tree.Permuted tree') (htree : tree.WellFormed) {location : List String}
    {entry : Entry} (hentry : tree.at? location = some entry) :
    ∃ entry', tree'.at? location = some entry' ∧ entry.Permuted entry' :=
  h.entries.exists_at? htree hentry

/-- A directory has an entry of a name in the permuted tree if it has one. -/
theorem exists_get? (h : tree.Permuted tree') (htree : tree.WellFormed) {location : List String}
    {entries : List (String × Entry)} (hdirectory : tree.at? location = some (.directory entries))
    {name : String} {entry : Entry} (hentry : Entries.get? entries name = some entry) :
    ∃ entries' entry', tree'.at? location = some (.directory entries') ∧
      Entries.get? entries' name = some entry' ∧ entry.Permuted entry' := by
  have hat : tree.at? (location ++ [name]) = some entry := by
    rw [at?_append, hdirectory]
    exact Entry.at?_cons_eq_some_iff.2 ⟨entries, entry, rfl, hentry, rfl⟩
  obtain ⟨entry', hat', hpermuted⟩ := h.exists_at? htree hat
  rw [at?_append] at hat'
  obtain ⟨found, hfound, hbelow⟩ := Option.bind_eq_some_iff.1 hat'
  obtain ⟨entries', below, rfl, hget, hdone⟩ := Entry.at?_cons_eq_some_iff.1 hbelow
  obtain rfl := Option.some.inj hdone
  exact ⟨entries', below, hfound, hget, hpermuted⟩

/-- Steps lead to the same place in a permuted tree. -/
theorem walks (h : tree.Permuted tree') (htree : tree.WellFormed) {links left : Nat}
    {start finish : List String} {steps : List Step}
    (hwalks : Walks tree links start steps left finish) :
    Walks tree' links start steps left finish := by
  have hdirectory {location : List String} {entries : List (String × Entry)}
      (hat : tree.at? location = some (.directory entries)) :
      ∃ entries', tree'.at? location = some (.directory entries') := by
    obtain ⟨entry', hat', hpermuted⟩ := h.exists_at? htree hat
    obtain ⟨entries', rfl⟩ := hpermuted.exists_directory
    exact ⟨entries', hat'⟩
  induction hwalks with
  | done => exact .done
  | stay hat _ ih =>
    obtain ⟨entries', hat'⟩ := hdirectory hat
    exact .stay hat' ih
  | up hat _ ih =>
    obtain ⟨entries', hat'⟩ := hdirectory hat
    exact .up hat' ih
  | down hat hsize hget hlink _ ih =>
    obtain ⟨entries', entry', hat', hget', hpermuted⟩ := h.exists_get? htree hat hget
    exact .down hat' hsize hget' (hpermuted.isLink_eq.trans hlink) ih
  | link hat hsize hget _ ih =>
    obtain ⟨entries', entry', hat', hget', hpermuted⟩ := h.exists_get? htree hat hget
    obtain rfl := hpermuted.eq_of_isDirectory rfl
    exact .link hat' hsize hget' ih

/-- A path leads to the same place in a permuted tree. -/
theorem locate (h : tree.Permuted tree') (htree : tree.WellFormed) {path : String}
    {location : List String} (hlocate : tree.locate path = .ok location) :
    tree'.locate path = .ok location := by
  obtain ⟨hnul, hempty, hsize, left, hwalks⟩ := locate_eq_ok_iff.1 hlocate
  refine locate_eq_ok_iff.2 ⟨hnul, hempty, hsize, left, ?_⟩
  rw [h.current]
  exact h.walks htree hwalks

/-- A path leads to a permuted entry if it leads to an entry. -/
theorem exists_entry (h : tree.Permuted tree') (htree : tree.WellFormed) {path : String}
    {entry : Entry} (hentry : tree.entry path = .ok entry) :
    ∃ entry', tree'.entry path = .ok entry' ∧ entry.Permuted entry' := by
  obtain ⟨location, hlocate, hat⟩ := entry_eq_ok_iff.1 hentry
  obtain ⟨entry', hat', hpermuted⟩ := h.exists_at? htree hat
  exact ⟨entry', entry_eq_ok_iff.2 ⟨location, h.locate htree hlocate, hat'⟩, hpermuted⟩

/-- The same paths lead to files in a permuted tree. -/
theorem isFile_eq (h : tree.Permuted tree') (htree : tree.WellFormed) (path : String) :
    tree'.isFile path = tree.isFile path := by
  have himp {first second : FileTree} (h : first.Permuted second) (hfirst : first.WellFormed)
      (hfile : first.isFile path = true) : second.isFile path = true := by
    unfold isFile at hfile
    split at hfile
    · rename_i bytes hentry
      obtain ⟨entry', hentry', hpermuted⟩ := h.exists_entry hfirst hentry
      obtain rfl := hpermuted.eq_of_isDirectory rfl
      rw [isFile, hentry']
    · contradiction
  exact Bool.eq_iff_iff.2 ⟨himp h.symm (h.wellFormed htree), himp h htree⟩

/-- The documents below a root are permuted with the tree. -/
theorem documentsBelow (h : tree.Permuted tree') (htree : tree.WellFormed) (root : String) :
    (tree.documentsBelow root).Perm (tree'.documentsBelow root) := by
  by_cases hroot : ∃ entries, tree.entry root = .ok (.directory entries)
  · obtain ⟨entries, hroot⟩ := hroot
    obtain ⟨entry', hroot', hpermuted⟩ := h.exists_entry htree hroot
    obtain ⟨entries', rfl⟩ := hpermuted.exists_directory
    have hdocument : tree'.isDocumentAt root = tree.isDocumentAt root := by
      funext names
      rw [isDocumentAt, isDocumentAt, h.isFile_eq htree]
    rw [FileTree.documentsBelow, FileTree.documentsBelow, hroot, hroot']
    dsimp only
    rw [(htree.of_entry hroot).documentsAmong_eq,
      ((h.wellFormed htree).of_entry hroot').documentsAmong_eq, hdocument]
    exact (hpermuted.leaves.filter _).map _
  · have hroot' : ¬∃ entries, tree'.entry root = .ok (.directory entries) := by
      rintro ⟨entries', hentry'⟩
      obtain ⟨entry, hentry, hpermuted⟩ := h.symm.exists_entry (h.wellFormed htree) hentry'
      obtain ⟨entries, rfl⟩ := hpermuted.exists_directory
      exact hroot ⟨entries, hentry⟩
    have hnone {other : FileTree}
        (hother : ¬∃ entries, other.entry root = .ok (.directory entries)) :
        other.documentsBelow root = [] := by
      unfold FileTree.documentsBelow
      split
      · rename_i entries hentry
        exact absurd ⟨entries, hentry⟩ hother
      · rfl
    rw [hnone hroot, hnone hroot']

end Permuted

end NeonAudit.FileTree
