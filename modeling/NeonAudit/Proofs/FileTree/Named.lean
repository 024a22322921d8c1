import NeonAudit.Proofs.FileTree.Groups

/-!
# The entries that paths name

A path names the entry to which its last step leads from the directory before it, and does not
follow the entry if it is a link. Paths with the same components name the same entry, since steps
that stay where they are change nothing on the way to a directory. The path of a document names the
leaf that the document is.
-/

namespace NeonAudit

open NeonAudit.Path

namespace FileTree

/-- Whether the step leads elsewhere. -/
def Step.moves (step : Step) : Bool :=
  step ≠ .stay

/-- The step that a component of a path is, if it leads elsewhere. -/
def Step.ofComponent? : Component → Option Step
  | .root => none
  | .current => none
  | .parent => some .up
  | .name text => some (.down (String.ofList text))

section Moves

/-- A part of a path that says nothing is a step that stays, and any other is the step of its
component. -/
theorem filter_moves_ofPart (part : List Char) : [Step.ofPart part].filter Step.moves =
    (Component.ofPart? part).toList.filterMap Step.ofComponent? := by
  rw [Step.ofPart, Component.ofPart?]
  split
  · rfl
  · split <;> rfl

/-- The steps of parts that lead elsewhere are those of their components. -/
theorem filter_moves_map_ofPart (parts : List (List Char)) :
    (parts.map Step.ofPart).filter Step.moves =
      (parts.filterMap Component.ofPart?).filterMap Step.ofComponent? := by
  induction parts with
  | nil => rfl
  | cons part parts ih =>
    have hpart : (part :: parts).filterMap Component.ofPart? =
        (Component.ofPart? part).toList ++ parts.filterMap Component.ofPart? := by
      rw [List.filterMap_cons]
      cases Component.ofPart? part <;> rfl
    rw [hpart, List.filterMap_append, ← filter_moves_ofPart, ← ih, ← List.filter_append]
    rfl

/-- The steps along a path that lead elsewhere are those of its components. -/
theorem filter_moves_stepsOf (path : String) : (stepsOf path).filter Step.moves =
    (components path).filterMap Step.ofComponent? := by
  obtain ⟨first, rest, hsplit⟩ := List.exists_cons_of_ne_nil (Text.split_ne_nil '/' path.toList)
  have hopening : (openingComponents first rest).filterMap Step.ofComponent? =
      [Step.ofPart first].filter Step.moves := by
    rw [filter_moves_ofPart, openingComponents]
    split
    · rename_i hfirst
      subst hfirst
      cases rest <;> rfl
    · split
      · rename_i hpoint
        subst hpoint
        rfl
      · rfl
  rw [components_of_split hsplit, List.filterMap_append, hopening, ← filter_moves_map_ofPart,
    ← List.filter_append, stepsOf, hsplit]
  rfl

end Moves

section Walks

variable {tree : FileTree} {links left : Nat} {start finish : List String}

/-- Steps that lead to a directory start in one. -/
theorem Walks.exists_directory {steps : List Step}
    (h : Walks tree links start steps left finish)
    (hfinish : ∃ entries, tree.at? finish = some (.directory entries)) :
    ∃ entries, tree.at? start = some (.directory entries) := by
  cases h with
  | done => exact hfinish
  | stay hdirectory _ => exact ⟨_, hdirectory⟩
  | up hdirectory _ => exact ⟨_, hdirectory⟩
  | down hdirectory _ _ _ _ => exact ⟨_, hdirectory⟩
  | link hdirectory _ _ _ => exact ⟨_, hdirectory⟩

/-- Steps that stay in a directory may be put before others. -/
theorem Walks.after_stays {stays steps : List Step}
    (hstart : ∃ entries, tree.at? start = some (.directory entries))
    (hstays : ∀ step ∈ stays, ¬step.moves = true) (h : Walks tree links start steps left finish) :
    Walks tree links start (stays ++ steps) left finish := by
  obtain ⟨entries, hdirectory⟩ := hstart
  induction stays with
  | nil => exact h
  | cons step stays ih =>
    obtain ⟨hstep, hrest⟩ := List.forall_mem_cons.1 hstays
    obtain rfl : step = .stay := by simpa [Step.moves] using hstep
    exact .stay hdirectory (ih hrest)

/-- Only the steps that lead elsewhere matter on the way to a directory. -/
theorem Walks.of_filter_moves {steps steps' : List Step}
    (h : Walks tree links start steps left finish)
    (hfinish : ∃ entries, tree.at? finish = some (.directory entries))
    (hmoves : steps'.filter Step.moves = steps.filter Step.moves) :
    Walks tree links start steps' left finish := by
  have hstart := h.exists_directory hfinish
  induction h generalizing steps' with
  | @done links start =>
    rw [← List.append_nil steps']
    exact .after_stays hstart (List.filter_eq_nil_iff.1 hmoves) .done
  | stay _ hrest ih => exact ih hfinish hmoves (hrest.exists_directory hfinish)
  | up hdirectory hrest ih =>
    obtain ⟨stays, rest, rfl, hstays, -, hrest'⟩ := List.filter_eq_cons_iff.1 hmoves
    exact .after_stays hstart hstays
      (.up hdirectory (ih hfinish hrest' (hrest.exists_directory hfinish)))
  | down hdirectory hsize hget hlink hrest ih =>
    obtain ⟨stays, rest, rfl, hstays, -, hrest'⟩ := List.filter_eq_cons_iff.1 hmoves
    exact .after_stays hstart hstays (.down hdirectory hsize hget hlink
      (ih hfinish hrest' (hrest.exists_directory hfinish)))
  | link hdirectory hsize hget hrest ih =>
    obtain ⟨stays, rest, rfl, hstays, -, hrest'⟩ := List.filter_eq_cons_iff.1 hmoves
    refine .after_stays hstart hstays (.link hdirectory hsize hget
      (ih hfinish ?_ (hrest.exists_directory hfinish)))
    rw [List.filter_append, List.filter_append, hrest']

end Walks

/-- The path names the entry at a location: the steps before the last one lead to the directory of
the entry, and the last one is to its name. -/
inductive NamesEntry (tree : FileTree) (path : String) : (location : List String) → Prop
  | intro {steps name directory entry} : stepsOf path = steps ++ [.down name] →
      tree.walk maxLinks (startOf tree.current path) steps = .ok directory →
        tree.at? (directory ++ [name]) = some entry → NamesEntry tree path (directory ++ [name])

section Names

variable {tree : FileTree} {path : String} {location : List String}

/-- A path that names an entry ends in a step down. -/
theorem NamesEntry.exists_stepsOf (h : tree.NamesEntry path location) :
    ∃ steps name, stepsOf path = steps ++ [.down name] := by
  cases h with
  | intro hsteps _ _ => exact ⟨_, _, hsteps⟩

/-- A path names one entry only. -/
theorem NamesEntry.unique {location' : List String} (h : tree.NamesEntry path location)
    (h' : tree.NamesEntry path location') : location = location' := by
  obtain ⟨hsteps, hwalk, -⟩ := h
  obtain ⟨hsteps', hwalk', -⟩ := h'
  obtain ⟨rfl, hlast⟩ := List.append_inj' (hsteps.symm.trans hsteps') rfl
  cases hlast
  rw [Except.ok.inj (hwalk.symm.trans hwalk')]

/-- Paths with the same components that end in names name the same entry. -/
theorem NamesEntry.of_same (h : tree.NamesEntry path location) {path' : String}
    (hsame : components path' = components path) {steps' : List Step} {name' : String}
    (hsteps' : stepsOf path' = steps' ++ [.down name']) : tree.NamesEntry path' location := by
  cases h with
  | @intro steps name directory entry hsteps hwalk hentry =>
    have hmoves : (steps' ++ [Step.down name']).filter Step.moves =
        (steps ++ [Step.down name]).filter Step.moves := by
      rw [← hsteps, ← hsteps', filter_moves_stepsOf, filter_moves_stepsOf, hsame]
    rw [List.filter_append, List.filter_append] at hmoves
    obtain ⟨hfront, hlast⟩ := List.append_inj' hmoves rfl
    obtain rfl : name' = name := Step.down.inj (List.cons.inj hlast).1
    have hdirectory : ∃ entries, tree.at? directory = some (.directory entries) := by
      rw [at?_append] at hentry
      obtain ⟨found, hfound, hbelow⟩ := Option.bind_eq_some_iff.1 hentry
      obtain ⟨entries, _, rfl, -⟩ := Entry.at?_cons_eq_some_iff.1 hbelow
      exact ⟨entries, hfound⟩
    have hstart : startOf tree.current path' = startOf tree.current path := by
      rw [startOf, startOf, isAbsolute_eq_of_components_eq hsame]
    obtain ⟨left, hwalks⟩ := walk_eq_ok_iff.1 hwalk
    exact .intro hsteps' (walk_eq_ok_iff.2
      ⟨left, by rw [hstart]; exact hwalks.of_filter_moves hdirectory hfront⟩) hentry

/-- A root joined with names that lead to a document names the leaf to which they lead. -/
theorem WellFormed.namesEntry_joinAll (h : tree.WellFormed) {root : String} {names : List String}
    (hroot : tree.locate root = .ok location) (hnames : LeadsToDocument tree root names) :
    tree.NamesEntry (joinAll root names) (location ++ names) := by
  have hvalid := h.isName_of_leadsToDocument hnames
  obtain ⟨entries, leaf, hentry, hleaf, hlast⟩ := hnames.exists_leaf
  obtain ⟨location', hlocate, hdirectory⟩ := entry_eq_ok_iff.1 hentry
  obtain rfl := Except.ok.inj (hroot.symm.trans hlocate)
  obtain ⟨name, hname, -⟩ := (Option.any_eq_true _ _).1 hlast
  obtain ⟨front, rfl⟩ := List.getLast?_eq_some_iff.1 hname
  obtain ⟨steps, left, hsteps, hlead⟩ := exists_walks_of_joinAll hroot hvalid (by simp)
  have hall : tree.at? (location ++ (front ++ [name])) = some leaf := by
    rw [at?_append, hdirectory]
    exact hleaf
  rw [Entry.at?_append] at hleaf
  obtain ⟨below, hbelow, hlink⟩ := Option.bind_eq_some_iff.1 hleaf
  obtain ⟨_, _, rfl, -⟩ := Entry.at?_cons_eq_some_iff.1 hlink
  have hfront : Walks tree left location (front.map .down) left (location ++ front) :=
    (walks_down_iff hdirectory hbelow rfl fun name hmem =>
      hvalid name (List.mem_append_left _ hmem)).2 ⟨rfl, rfl⟩
  rw [← List.append_assoc] at hall ⊢
  have hlastStep : stepsOf (joinAll root (front ++ [name])) =
      steps ++ front.map .down ++ [.down name] := by
    rw [hsteps, List.map_append, List.append_assoc, List.map_singleton]
  exact .intro hlastStep (walk_eq_ok_iff.2 ⟨left, hlead.append hfront⟩) hall

end Names

end FileTree

end NeonAudit
