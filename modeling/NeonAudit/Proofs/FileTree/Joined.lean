import NeonAudit.FileTree
import NeonAudit.Proofs.Text.Split

/-!
# Paths joined with names

The documents below a root have paths that are the root joined with names of entries. Joining adds
a component for each name and leaves the components of the root alone, so the names can be read off
the path. The steps along the path are those along the root and a step for each name, except that a
slash at the end of the root is not a step of its own.
-/

namespace NeonAudit

/-- The text can be the name of an entry of a directory. -/
structure IsName (name : String) : Prop where
  /-- The name is not empty. -/
  ne_empty : name ≠ ""
  /-- The name does not stand for the directory itself. -/
  ne_point : name ≠ "."
  /-- The name does not stand for the directory above. -/
  ne_points : name ≠ ".."
  /-- No slash is part of the name. -/
  slash_notMem : '/' ∉ name.toList
  /-- No character of code zero is part of the name. -/
  nul_notMem : '\x00' ∉ name.toList
  /-- The name is not too long. -/
  size_le : name.utf8ByteSize ≤ FileTree.maxNameBytes

instance (name : String) : Decidable (IsName name) :=
  decidable_of_iff (name ≠ "" ∧ name ≠ "." ∧ name ≠ ".." ∧ '/' ∉ name.toList ∧
      '\x00' ∉ name.toList ∧ name.utf8ByteSize ≤ FileTree.maxNameBytes)
    ⟨fun ⟨hempty, hpoint, hpoints, hslash, hnul, hsize⟩ =>
        ⟨hempty, hpoint, hpoints, hslash, hnul, hsize⟩,
      fun h => ⟨h.ne_empty, h.ne_point, h.ne_points, h.slash_notMem, h.nul_notMem, h.size_le⟩⟩

namespace Path

/-- The component that a name is. -/
def Component.ofName (name : String) : Component :=
  .name name.toList

/-- The path that leads from the end of a base along names. -/
def joinAll (base : String) (names : List String) : String :=
  names.foldl join base

end Path

open NeonAudit.Path

section Components

/-- The components of a path are told by its parts. -/
theorem components_of_split {path : String} {first : List Char} {rest : List (List Char)}
    (h : Text.split '/' path.toList = first :: rest) :
    components path = openingComponents first rest ++ rest.filterMap Component.ofPart? := by
  rw [components, h]

/-- A component between two slashes is not the root. -/
theorem Component.ofPart?_ne_root (part : List Char) : Component.ofPart? part ≠ some .root := by
  unfold Component.ofPart?
  split
  · simp
  · split <;> simp

/-- The root is no component of a path whose first part is not empty. -/
theorem root_notMem_components {path : String} {first : List Char} {rest : List (List Char)}
    (h : Text.split '/' path.toList = first :: rest) (hfirst : first ≠ []) :
    Component.root ∉ components path := by
  rw [components_of_split h, List.mem_append, openingComponents, if_neg hfirst]
  rintro (hopening | hrest)
  · split at hopening
    · simp at hopening
    · exact Component.ofPart?_ne_root first (Option.mem_toList.1 hopening)
  · obtain ⟨part, -, hpart⟩ := List.mem_filterMap.1 hrest
    exact Component.ofPart?_ne_root part hpart

/-- Only a path that starts with a slash has the root as its first component. -/
theorem head?_components_eq_root_iff (path : String) :
    (components path).head? = some .root ↔ Path.isAbsolute path = true := by
  rw [Path.isAbsolute, decide_eq_true_eq]
  cases hpath : path.toList with
  | nil =>
    have hcomponents : components path = [] := by rw [components, hpath]; rfl
    simp [hcomponents]
  | cons c text =>
    by_cases hc : c = '/'
    · have hsplit : Text.split '/' path.toList = [] :: Text.split '/' text := by
        rw [hpath, Text.split, if_pos hc]
      have hopening : openingComponents [] (Text.split '/' text) = [.root] := by
        rw [openingComponents, if_pos rfl,
          List.isEmpty_eq_false_iff.2 (Text.split_ne_nil '/' text)]
        rfl
      rw [components_of_split hsplit, hopening, hc]
      simp
    · obtain ⟨part, parts, hparts⟩ := List.exists_cons_of_ne_nil (Text.split_ne_nil '/' text)
      have hsplit : Text.split '/' path.toList = (c :: part) :: parts := by
        rw [hpath, Text.split, if_neg hc, hparts]
      have hroot := root_notMem_components hsplit (List.cons_ne_nil _ _)
      exact iff_of_false (fun hhead => hroot (List.mem_of_mem_head? hhead)) (by simpa using hc)

/-- Whether a path starts at the root is told by its components. -/
theorem isAbsolute_eq_of_components_eq {first second : String}
    (h : components first = components second) :
    Path.isAbsolute first = Path.isAbsolute second := by
  rw [Bool.eq_iff_iff, ← head?_components_eq_root_iff, h, head?_components_eq_root_iff]

/-- The components at the start of a path depend on the parts after the first one only if that is
empty, and then on whether there are any. -/
theorem openingComponents_congr {first : List Char} {rest rest' : List (List Char)}
    (h : first = [] → rest.isEmpty = rest'.isEmpty) :
    openingComponents first rest = openingComponents first rest' := by
  unfold openingComponents
  split
  · rename_i hfirst
    rw [h hfirst]
  · rfl

/-- Only the empty path has an empty part as its only one. -/
theorem eq_empty_of_split {path : String} (h : Text.split '/' path.toList = [[]]) : path = "" := by
  have hparts := Text.intercalate_split '/' path.toList
  rw [h] at hparts
  exact String.toList_inj.1 hparts.symm

end Components

section Name

variable {name : String} (h : IsName name)
include h

/-- The characters of a name are not those of an empty part or of a point. -/
theorem IsName.toList_ne :
    ¬(name.toList = [] ∨ name.toList = ['.']) ∧ name.toList ≠ ['.', '.'] := by
  refine ⟨not_or.2 ⟨fun heq => h.ne_empty ?_, fun heq => h.ne_point ?_⟩,
    fun heq => h.ne_points ?_⟩ <;>
  exact String.toList_inj.1 heq

/-- A name is a component. -/
theorem IsName.ofPart? : Component.ofPart? name.toList = some (.ofName name) := by
  rw [Component.ofPart?, if_neg h.toList_ne.1, if_neg h.toList_ne.2, Component.ofName]

/-- A name is a step down. -/
theorem IsName.stepOfPart : FileTree.Step.ofPart name.toList = .down name := by
  rw [FileTree.Step.ofPart, if_neg h.toList_ne.1, if_neg h.toList_ne.2, String.ofList_toList]

/-- A name starts no path at the root. -/
theorem IsName.isAbsolute : isAbsolute name = false := by
  refine decide_eq_false fun hhead => h.slash_notMem ?_
  exact List.mem_of_mem_head? hhead

/-- The parts of a path joined with a name are those of the base and the name; an empty part at the
end of the base is left out. -/
theorem IsName.exists_split_join (base : String) : ∃ parts,
    Text.split '/' (join base name).toList = parts ++ [name.toList] ∧
      (Text.split '/' base.toList = parts ∧ base ≠ "" ∨
        Text.split '/' base.toList = parts ++ [[]]) := by
  have hname := Text.split_eq_singleton h.slash_notMem
  rw [join, if_neg (by rw [h.isAbsolute]; exact Bool.false_ne_true)]
  split
  · rename_i hbase
    rw [Bool.or_eq_true, String.isEmpty_iff, decide_eq_true_eq] at hbase
    rcases hbase with rfl | hlast
    · exact ⟨[], by rw [String.empty_append, hname]; rfl, .inr rfl⟩
    · obtain ⟨front, hfront⟩ := List.getLast?_eq_some_iff.1 hlast
      refine ⟨Text.split '/' front, ?_, .inr ?_⟩
      · rw [String.toList_append, hfront, List.append_assoc, List.singleton_append,
          Text.split_append, hname]
      · rw [hfront, Text.split_append]
        rfl
  · rename_i hbase
    rw [Bool.or_eq_true, String.isEmpty_iff, not_or] at hbase
    refine ⟨_, ?_, .inl ⟨rfl, hbase.1⟩⟩
    have hslash : "/".toList = ['/'] := rfl
    rw [String.toList_append, String.toList_append, hslash, List.append_assoc,
      List.singleton_append, Text.split_append, hname]

/-- Joining a name adds its component. -/
theorem IsName.components_join (base : String) :
    components (join base name) = components base ++ [.ofName name] := by
  obtain ⟨parts, hjoin, hbase⟩ := h.exists_split_join base
  cases parts with
  | nil =>
    have hempty := hbase.resolve_left fun hbase => Text.split_ne_nil _ _ hbase.1
    rw [components_of_split hjoin, components_of_split hempty, openingComponents,
      if_neg fun hnil => h.toList_ne.1 (.inl hnil),
      if_neg fun hpoint => h.toList_ne.1 (.inr hpoint), h.ofPart?]
    rfl
  | cons first rest =>
    have hname : (rest ++ [name.toList]).filterMap Component.ofPart? =
        rest.filterMap Component.ofPart? ++ [.ofName name] := by
      rw [List.filterMap_append, List.filterMap_cons, h.ofPart?]
      rfl
    have hempty : (rest ++ [[]]).filterMap Component.ofPart? =
        rest.filterMap Component.ofPart? := by
      rw [List.filterMap_append]
      exact List.append_nil _
    have hopening : components base =
        openingComponents first (rest ++ [name.toList]) ++ rest.filterMap Component.ofPart? := by
      rcases hbase with ⟨hbase, hne⟩ | hbase
      · rw [components_of_split hbase, openingComponents_congr fun hfirst => ?_]
        cases rest with
        | nil => exact absurd (eq_empty_of_split (hfirst ▸ hbase)) hne
        | cons part rest => rfl
      · have hsplit : Text.split '/' base.toList = first :: (rest ++ [[]]) := hbase
        rw [components_of_split hsplit, hempty, openingComponents_congr fun _ => ?_]
        cases rest <;> rfl
    have hsplit : Text.split '/' (join base name).toList = first :: (rest ++ [name.toList]) :=
      hjoin
    rw [components_of_split hsplit, hname, hopening, List.append_assoc]

/-- A joined path starts where its base does. -/
theorem IsName.isAbsolute_join (base : String) :
    Path.isAbsolute (join base name) = Path.isAbsolute base := by
  rw [Bool.eq_iff_iff, ← head?_components_eq_root_iff, ← head?_components_eq_root_iff,
    h.components_join]
  cases components base <;> simp [Component.ofName]

/-- The steps along a joined path are those along the base and one to the name; a slash at the end
of the base is not a step of its own. -/
theorem IsName.exists_stepsOf_join (base : String) : ∃ steps,
    FileTree.stepsOf (join base name) = steps ++ [.down name] ∧
      (FileTree.stepsOf base = steps ∨ FileTree.stepsOf base = steps ++ [.stay]) := by
  obtain ⟨parts, hjoin, hbase⟩ := h.exists_split_join base
  refine ⟨parts.map FileTree.Step.ofPart, ?_, ?_⟩
  · rw [FileTree.stepsOf, hjoin, List.map_append, List.map_singleton, h.stepOfPart]
  · rcases hbase with ⟨hbase, -⟩ | hbase
    · exact .inl (by rw [FileTree.stepsOf, hbase])
    · exact .inr (by rw [FileTree.stepsOf, hbase, List.map_append]; rfl)

/-- Joining a name adds no character of code zero. -/
theorem IsName.nul_notMem_join {base : String} (hbase : '\x00' ∉ base.toList) :
    '\x00' ∉ (join base name).toList := by
  have hslash : '\x00' ∉ "/".toList := by decide
  rw [join, if_neg (by rw [h.isAbsolute]; exact Bool.false_ne_true)]
  split <;> simp only [String.toList_append, List.mem_append, not_or]
  · exact ⟨hbase, h.nul_notMem⟩
  · exact ⟨⟨hbase, hslash⟩, h.nul_notMem⟩

end Name

section Names

variable {names : List String} (h : ∀ name ∈ names, IsName name)
include h

/-- Joining names adds their components. -/
theorem components_joinAll (base : String) :
    components (joinAll base names) = components base ++ names.map .ofName := by
  induction names generalizing base with
  | nil => exact (List.append_nil _).symm
  | cons name names ih =>
    obtain ⟨hname, hnames⟩ := List.forall_mem_cons.1 h
    calc
      _ = components (joinAll (join base name) names) := rfl
      _ = components base ++ [.ofName name] ++ names.map .ofName := by
        rw [ih hnames, hname.components_join]
      _ = components base ++ (name :: names).map .ofName := by
        rw [List.append_assoc, List.singleton_append, List.map_cons]

/-- A path joined with names starts where its base does. -/
theorem isAbsolute_joinAll (base : String) :
    Path.isAbsolute (joinAll base names) = Path.isAbsolute base := by
  induction names generalizing base with
  | nil => rfl
  | cons name names ih =>
    obtain ⟨hname, hnames⟩ := List.forall_mem_cons.1 h
    exact (ih hnames (join base name)).trans (hname.isAbsolute_join base)

/-- Joining names adds no character of code zero. -/
theorem nul_notMem_joinAll {base : String} (hbase : '\x00' ∉ base.toList) :
    '\x00' ∉ (joinAll base names).toList := by
  induction names generalizing base with
  | nil => exact hbase
  | cons name names ih =>
    obtain ⟨hname, hnames⟩ := List.forall_mem_cons.1 h
    exact ih hnames (hname.nul_notMem_join hbase)

/-- A path with names joined to it is not empty. -/
theorem joinAll_ne_empty (hne : names ≠ []) (base : String) : joinAll base names ≠ "" := by
  intro hempty
  have hcomponents := components_joinAll h base
  rw [hempty] at hcomponents
  exact hne (List.map_eq_nil_iff.1 (List.append_eq_nil_iff.1 hcomponents.symm).2)

/-- The steps along a path joined with names are those along the base and one to each name; a slash
at the end of the base is not a step of its own. -/
theorem exists_stepsOf_joinAll (hne : names ≠ []) (base : String) : ∃ steps,
    FileTree.stepsOf (joinAll base names) = steps ++ names.map .down ∧
      (FileTree.stepsOf base = steps ∨ FileTree.stepsOf base = steps ++ [.stay]) := by
  induction names generalizing base with
  | nil => contradiction
  | cons name names ih =>
    obtain ⟨hname, hnames⟩ := List.forall_mem_cons.1 h
    obtain ⟨steps, hjoin, hbase⟩ := hname.exists_stepsOf_join base
    cases names with
    | nil => exact ⟨steps, hjoin, hbase⟩
    | cons next names =>
      obtain ⟨steps', hsteps, hjoined⟩ := ih hnames (List.cons_ne_nil _ _) (join base name)
      have heq : steps' = steps ++ [.down name] := by
        rcases hjoined with hjoined | hjoined
        · rw [← hjoined, hjoin]
        · rw [hjoin] at hjoined
          exact absurd (List.append_inj_right' hjoined rfl) (by simp)
      refine ⟨steps, ?_, hbase⟩
      calc
        _ = FileTree.stepsOf (joinAll (join base name) (next :: names)) := rfl
        _ = steps ++ [.down name] ++ (next :: names).map .down := by rw [hsteps, heq]
        _ = steps ++ (name :: next :: names).map .down := List.append_assoc _ _ _

end Names

/-- Names can be read off the path that they are joined to. -/
theorem joinAll_injective {base : String} {names names' : List String}
    (h : ∀ name ∈ names, IsName name) (h' : ∀ name ∈ names', IsName name)
    (heq : components (joinAll base names) = components (joinAll base names')) :
    names = names' := by
  rw [components_joinAll h, components_joinAll h'] at heq
  refine (List.map_inj_right fun name name' hname => ?_).1 (List.append_cancel_left heq)
  exact String.toList_inj.1 (Component.name.inj hname)

end NeonAudit
