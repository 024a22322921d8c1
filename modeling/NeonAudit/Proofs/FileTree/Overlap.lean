import NeonAudit.Proofs.FileTree.Named

/-!
# Roots that overlap

A root can lead to the directory of another root, or to one below it, and then both lead on to the
same documents. A document is left out if the components of its path were seen before. So it is
listed once exactly if the inner root is spelled as the outer one joined with the names between,
which roots that lead down by names alone always are. A root with a point, a step up or a link in
front can lead to the same directory in another spelling, and then the documents of both are
listed.
-/

namespace NeonAudit.FileTree

open NeonAudit.Path

/-- No two of the paths name the same entry. -/
def ListsOnce (tree : FileTree) (paths : List String) : Prop :=
  paths.Pairwise fun first second =>
    ∀ location, tree.NamesEntry first location → ¬tree.NamesEntry second location

/-- Where one root leads to the directory of another or below it, and both lead on to a document, it
is the other root joined with the names between. -/
def SpelledAlike (tree : FileTree) (roots : List String) : Prop :=
  ∀ outer ∈ roots, ∀ inner ∈ roots, ∀ location between names,
    tree.locate outer = .ok location → tree.locate inner = .ok (location ++ between) →
      LeadsToDocument tree outer (between ++ names) → LeadsToDocument tree inner names →
        same inner (joinAll outer between) = true

/-- The path leads down from the current directory by names alone, if it leads anywhere. -/
def LeadsDown (tree : FileTree) (path : String) : Prop :=
  ∃ names, (∀ name ∈ names, IsName name) ∧ components path = names.map .ofName ∧
    ∀ location, tree.locate path = .ok location → location = tree.current ++ names

/-- A path is the same as another joined with names if the two lead on to the same path. -/
theorem same_iff_joinAll_append {outer inner : String} {between names : List String}
    (h : ∀ name ∈ between ++ names, IsName name) :
    same inner (joinAll outer between) = true ↔
      components (joinAll outer (between ++ names)) = components (joinAll inner names) := by
  obtain ⟨hbetween, hnames⟩ := List.forall_mem_append.1 h
  rw [same_iff, components_joinAll h, components_joinAll hbetween, components_joinAll hnames,
    List.map_append, ← List.append_assoc, List.append_left_inj, eq_comm]

section

variable {tree : FileTree} {roots : List String}

/-- Some of the paths are not listed twice if all of them are not. -/
theorem ListsOnce.sublist {paths paths' : List String} (h : tree.ListsOnce paths)
    (hsublist : paths'.Sublist paths) : tree.ListsOnce paths' :=
  List.Pairwise.sublist hsublist h

/-- Paths in the list that name the same entry are the same. -/
theorem ListsOnce.eq_of_namesEntry {paths : List String} (h : tree.ListsOnce paths)
    {first second : String} (hfirst : first ∈ paths) (hsecond : second ∈ paths)
    {location : List String} (hentry : tree.NamesEntry first location)
    (hentry' : tree.NamesEntry second location) : first = second := by
  by_contra hne
  have hsymm : Std.Symm fun first second =>
      ∀ location, tree.NamesEntry first location → ¬tree.NamesEntry second location :=
    ⟨fun first second hnot location hsecond hfirst => hnot location hfirst hsecond⟩
  exact List.Pairwise.forall h hfirst hsecond hne location hentry hentry'

/-- Roots that lead down by names alone are spelled alike. -/
theorem spelledAlike_of_leadsDown (h : ∀ root ∈ roots, tree.LeadsDown root) :
    tree.SpelledAlike roots := by
  intro outer houter inner hinner location between names hlocate hlocate' _ _
  obtain ⟨down, -, hcomponents, hdown⟩ := h outer houter
  obtain ⟨down', hvalid, hcomponents', hdown'⟩ := h inner hinner
  have hbelow : down ++ between = down' := by
    have hlocation := hdown' _ hlocate'
    rw [hdown _ hlocate, List.append_assoc] at hlocation
    exact List.append_cancel_left hlocation
  subst hbelow
  rw [same_iff, hcomponents',
    components_joinAll fun name hmem => hvalid name (List.mem_append_right down hmem), hcomponents,
    List.map_append]

/-- Names that lead from a root to a document lead from where the root leads. -/
theorem LeadsToDocument.exists_locate {root : String} {names : List String}
    (h : LeadsToDocument tree root names) : ∃ location, tree.locate root = .ok location := by
  obtain ⟨entries, leaf, hentry, -, -⟩ := h.exists_leaf
  obtain ⟨location, hlocate, -⟩ := entry_eq_ok_iff.1 hentry
  exact ⟨location, hlocate⟩

end

section

variable {tree : FileTree} (h : tree.WellFormed) {roots : List String}
include h

/-- The path of a document is a root that leads somewhere, joined with names that lead on. -/
theorem WellFormed.exists_of_mem_documents {path : String} (hpath : path ∈ tree.documents roots) :
    ∃ root ∈ roots, ∃ location names, tree.locate root = .ok location ∧
      LeadsToDocument tree root names ∧ path = joinAll root names := by
  obtain ⟨root, hroot, hbelow⟩ := exists_mem_documentsBelow hpath
  obtain ⟨names, hnames, hjoined⟩ := h.mem_documentsBelow_iff.1 hbelow
  obtain ⟨location, hlocate⟩ := hnames.exists_locate
  exact ⟨root, hroot, location, names, hlocate, hnames, hjoined⟩

/-- A document to which a root leads is listed by a path with the same components, which names its
entry. -/
theorem WellFormed.exists_listed {root : String} (hroot : root ∈ roots)
    {location names : List String} (hlocate : tree.locate root = .ok location)
    (hnames : LeadsToDocument tree root names) :
    ∃ found ∈ tree.documents roots, components found = components (joinAll root names) ∧
      tree.NamesEntry found (location ++ names) := by
  have hlisted : IsListed (tree.documents roots) (joinAll root names) :=
    h.isListed_documentsAfter.2 ⟨⟨root, hroot, names, hnames, same_iff.2 rfl⟩, by simp [IsListed]⟩
  obtain ⟨found, hfound, hsame⟩ := hlisted
  have hcomponents := (same_iff.1 hsame).symm
  refine ⟨found, hfound, hcomponents, ?_⟩
  obtain ⟨root', -, location', names', hlocate', hnames', rfl⟩ := h.exists_of_mem_documents hfound
  obtain ⟨steps, name, hsteps⟩ := (h.namesEntry_joinAll hlocate' hnames').exists_stepsOf
  exact (h.namesEntry_joinAll hlocate hnames).of_same hcomponents hsteps

/-- Documents are listed once below roots that are spelled alike, and only below such. -/
theorem WellFormed.listsOnce_documents_iff :
    tree.ListsOnce (tree.documents roots) ↔ tree.SpelledAlike roots := by
  constructor
  · intro honce outer houter inner hinner location between names hlocate hlocate' hnames hnames'
    obtain ⟨first, hfirst, hcomponents, hentry⟩ := h.exists_listed houter hlocate hnames
    obtain ⟨second, hsecond, hcomponents', hentry'⟩ := h.exists_listed hinner hlocate' hnames'
    rw [← List.append_assoc] at hentry
    obtain rfl := honce.eq_of_namesEntry hfirst hsecond hentry hentry'
    exact (same_iff_joinAll_append (h.isName_of_leadsToDocument hnames)).2
      (hcomponents.symm.trans hcomponents')
  · intro halike
    refine (h.pairwise_documentsAfter roots).1.imp_of_mem ?_
    intro first second hfirst hsecond hdistinct location hentry hentry'
    obtain ⟨outer, houter, start, names, hstart, hnames, rfl⟩ := h.exists_of_mem_documents hfirst
    obtain ⟨inner, hinner, start', names', hstart', hnames', rfl⟩ :=
      h.exists_of_mem_documents hsecond
    obtain rfl := hentry.unique (h.namesEntry_joinAll hstart hnames)
    -- The directories of the two roots are on the way to one entry, so one is above the other.
    have hlocations := hentry'.unique (h.namesEntry_joinAll hstart' hnames')
    rw [← Bool.not_eq_true, same_iff] at hdistinct
    apply hdistinct
    rcases List.append_eq_append_iff.1 hlocations with ⟨between, rfl, rfl⟩ | ⟨between, rfl, rfl⟩
    · exact (same_iff_joinAll_append (h.isName_of_leadsToDocument hnames)).1
        (halike outer houter inner hinner start between names' hstart hstart' hnames hnames')
    · exact ((same_iff_joinAll_append (h.isName_of_leadsToDocument hnames')).1
        (halike inner hinner outer houter start' between names hstart' hstart hnames' hnames)).symm

end

end NeonAudit.FileTree
