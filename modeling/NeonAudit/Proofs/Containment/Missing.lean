import NeonAudit.Proofs.Containment
import NeonAudit.Proofs.Part

/-!
# What a tree misses of a fragment

Under each key, what a tree misses of a mapping is the whole value where the tree does not have the
key, and what is missed of the value otherwise. Along a path this leads to the fragment and to the
tree at once: it ends at a leaf exactly if the fragment has the leaf there and the tree has nothing
equal to it. An empty mapping is missing only where the path does not exist in the tree. What is
missing is missing as a whole.
-/

namespace NeonAudit.Value

/-- What a tree misses of a value under a key. -/
def missingUnder? (tree : Value) (key : String) (expected : Value) : Option Value :=
  (tree.get? key).elim (some expected) (missing? expected)

/-- What is missing of entries is what is missing of each of their values. -/
theorem missingEntries_cons (entry : String × Value) (wanted : List (String × Value))
    (tree : Value) :
    missingEntries (entry :: wanted) tree =
      match missingUnder? tree entry.1 entry.2 with
      | none => missingEntries wanted tree
      | some part => (entry.1, part) :: missingEntries wanted tree := by
  obtain ⟨key, expected⟩ := entry
  rw [missingEntries, missingUnder?]
  cases tree.get? key with
  | none => rfl
  | some actual =>
    cases hmissing : missing? expected actual <;> simp [hmissing]

/-- What is missing of a mapping is the mapping of what is missing of its entries, if that is
anything. -/
theorem missing?_mapping_eq_some_iff {wanted : List (String × Value)} {tree part : Value} :
    missing? (mapping wanted) tree = some part ↔
      missingEntries wanted tree ≠ [] ∧ mapping (missingEntries wanted tree) = part := by
  rw [missing?]
  cases missingEntries wanted tree <;> simp

/-- What is missing of what is no mapping is all of it, in a tree that is not equal to it. -/
theorem missing?_eq_some_iff {fragment : Value} (h : ∀ entries, fragment ≠ mapping entries)
    {tree part : Value} :
    missing? fragment tree = some part ↔ fragment.same tree = false ∧ fragment = part := by
  rw [missing?_of_ne_mapping h]
  cases fragment.same tree <;> simp

section Path

variable {wanted : List (String × Value)}

/-- What is missing under a key is what is missing of the value that the fragment has there. -/
theorem get?_missingEntries (h : (Entries.keys wanted).Nodup) (tree : Value) (key : String) :
    Entries.get? (missingEntries wanted tree) key =
      (Entries.get? wanted key).bind (missingUnder? tree key) := by
  induction wanted with
  | nil => rfl
  | cons entry wanted ih =>
    obtain ⟨name, expected⟩ := entry
    obtain ⟨hnew, hnodup⟩ := List.nodup_cons.1 h
    rw [missingEntries_cons, Entries.get?]
    by_cases hkey : name = key
    · -- The name is no key of the other entries, so nothing more is found under it.
      have hnone : Entries.get? wanted name = none := by
        rw [← Option.not_isSome_iff_eq_none]
        intro hfound
        exact hnew (Entries.contains_iff.1 hfound)
      subst hkey
      cases hmissing : missingUnder? tree name expected with
      | none => simp [ih hnodup, hnone, hmissing]
      | some part => simp [Entries.get?, hmissing]
    · cases missingUnder? tree name expected with
      | none => simp [ih hnodup, hkey]
      | some part => simp [Entries.get?, ih hnodup, hkey]

/-- A path leads into what is missing of a mapping as it leads into what is missing under its first
key. -/
theorem bind_getPath?_missing?_cons (h : (Entries.keys wanted).Nodup) (tree : Value) (key : String)
    (path : List String) :
    ((missing? (mapping wanted) tree).bind fun part => part.getPath? (key :: path)) =
      (Entries.get? wanted key).bind fun expected =>
        (missingUnder? tree key expected).bind fun part => part.getPath? path := by
  have hentries := get?_missingEntries h tree key
  rw [← Option.bind_assoc, ← hentries, missing?]
  cases missingEntries wanted tree with
  | nil => rfl
  | cons entry rest => simp [get?]

/-- Let a target be missing of a fragment exactly if it is the fragment and the tree has a property,
which also the absence of a tree has. Then a path leads to the target in what is missing exactly if it
leads to the target in the fragment and what it leads to in the tree has the property. -/
theorem bind_getPath?_missing?_iff {target : Value} {P : Option Value → Prop} (hnone : P none)
    (hsome : ∀ fragment tree, missing? fragment tree = some target ↔
      fragment = target ∧ P (some tree))
    {fragment : Value} (h : fragment.Distinct) (tree : Value) (path : List String) :
    ((missing? fragment tree).bind fun part => part.getPath? path) = some target ↔
      fragment.getPath? path = some target ∧ P (tree.getPath? path) := by
  induction path generalizing fragment tree with
  | nil => simpa using hsome fragment tree
  | cons key path ih =>
    by_cases hmapping : ∃ wanted, fragment = mapping wanted
    · obtain ⟨wanted, rfl⟩ := hmapping
      rw [bind_getPath?_missing?_cons h.1, getPath?_cons, getPath?_cons, get?]
      cases hexpected : Entries.get? wanted key with
      | none => simp
      | some expected =>
        have hdistinct := distinct_of_mem_entries h.2 (Entries.mem_of_get? hexpected)
        cases hactual : tree.get? key with
        | none => simp [missingUnder?, hactual, hnone]
        | some actual => simpa [missingUnder?, hactual] using ih hdistinct actual
    · have hleaf : ∀ wanted, fragment ≠ mapping wanted := fun wanted heq => hmapping ⟨wanted, heq⟩
      have hget : fragment.get? key = none := by
        cases fragment with
        | mapping wanted => exact absurd rfl (hleaf wanted)
        | _ => rfl
      have hmissing : (missing? fragment tree).bind (fun part => part.getPath? (key :: path)) =
          none := by
        rw [Option.bind_eq_none_iff]
        intro part hpart
        obtain ⟨-, rfl⟩ := (missing?_eq_some_iff hleaf).1 hpart
        rw [getPath?_cons, hget, Option.bind_none]
      rw [hmissing, getPath?_cons, hget]
      simp

/-- A path leads to a leaf in what is missing exactly if it leads to the leaf in the fragment and to
nothing equal in the tree. -/
theorem bind_getPath?_missing?_eq_leaf_iff {leaf : Value} (hleaf : ∀ entries, leaf ≠ mapping entries)
    {fragment : Value} (h : fragment.Distinct) (tree : Value) (path : List String) :
    ((missing? fragment tree).bind fun part => part.getPath? path) = some leaf ↔
      fragment.getPath? path = some leaf ∧
        ∀ found, tree.getPath? path = some found → leaf.same found = false := by
  apply bind_getPath?_missing?_iff (P := fun found? => ∀ found, found? = some found →
    leaf.same found = false) (by simp) _ h
  intro fragment tree
  by_cases hmapping : ∃ wanted, fragment = mapping wanted
  · obtain ⟨wanted, rfl⟩ := hmapping
    rw [missing?_mapping_eq_some_iff]
    constructor
    · intro hpart
      exact absurd hpart.2.symm (hleaf _)
    · intro heq
      exact absurd heq.1.symm (hleaf _)
  · rw [missing?_eq_some_iff fun wanted heq => hmapping ⟨wanted, heq⟩]
    constructor
    · rintro ⟨hsame, rfl⟩
      simpa using hsame
    · rintro ⟨rfl, hsame⟩
      exact ⟨hsame tree rfl, rfl⟩

/-- A path leads to an empty mapping in what is missing exactly if it leads to an empty mapping in the
fragment and nowhere in the tree. -/
theorem bind_getPath?_missing?_eq_empty_iff {fragment : Value} (h : fragment.Distinct)
    (tree : Value) (path : List String) :
    ((missing? fragment tree).bind fun part => part.getPath? path) = some (mapping []) ↔
      fragment.getPath? path = some (mapping []) ∧ tree.getPath? path = none := by
  apply bind_getPath?_missing?_iff (P := fun found? => found? = none) rfl _ h
  intro fragment tree
  -- Neither side holds: what is missing is no empty mapping, and there is a tree.
  refine iff_of_false (fun hpart => ?_) (by simp)
  by_cases hmapping : ∃ wanted, fragment = mapping wanted
  · obtain ⟨wanted, rfl⟩ := hmapping
    obtain ⟨hne, hpart⟩ := missing?_mapping_eq_some_iff.1 hpart
    exact hne (mapping.inj hpart)
  · have hleaf : ∀ wanted, fragment ≠ mapping wanted := fun wanted heq => hmapping ⟨wanted, heq⟩
    exact hleaf [] ((missing?_eq_some_iff hleaf).1 hpart).2

end Path

/-- Entries of which each is missing as a whole are missing as a whole. -/
theorem missingEntries_eq_self {entries : List (String × Value)} {tree : Value}
    (h : ∀ entry ∈ entries, missingUnder? tree entry.1 entry.2 = some entry.2) :
    missingEntries entries tree = entries := by
  induction entries with
  | nil => rfl
  | cons entry entries ih =>
    rw [List.forall_mem_cons] at h
    rw [missingEntries_cons, h.1, ih h.2]

/-- What is missing of entries is missing of one of their values. -/
theorem exists_of_mem_missingEntries {wanted : List (String × Value)} {tree : Value}
    {entry : String × Value} (h : entry ∈ missingEntries wanted tree) :
    ∃ expected, (entry.1, expected) ∈ wanted ∧
      missingUnder? tree entry.1 expected = some entry.2 := by
  induction wanted with
  | nil => contradiction
  | cons first wanted ih =>
    have hrest (hmem : entry ∈ missingEntries wanted tree) :
        ∃ expected, (entry.1, expected) ∈ first :: wanted ∧
          missingUnder? tree entry.1 expected = some entry.2 := by
      obtain ⟨expected, hexpected, hmissing⟩ := ih hmem
      exact ⟨expected, List.mem_cons_of_mem _ hexpected, hmissing⟩
    rw [missingEntries_cons] at h
    split at h
    · exact hrest h
    · rename_i part hpart
      rcases List.mem_cons.1 h with rfl | hmem
      · exact ⟨first.2, List.mem_cons_self, hpart⟩
      · exact hrest hmem

/-- What is missing is missing as a whole. -/
theorem missing?_of_missing? {fragment tree part : Value} (h : missing? fragment tree = some part) :
    missing? part tree = some part := by
  induction fragment using induction_inside generalizing tree part with
  | hmapping wanted ih =>
    obtain ⟨hne, rfl⟩ := missing?_mapping_eq_some_iff.1 h
    have hself : missingEntries (missingEntries wanted tree) tree = missingEntries wanted tree := by
      apply missingEntries_eq_self
      intro entry hentry
      obtain ⟨expected, hexpected, hmissing⟩ := exists_of_mem_missingEntries hentry
      rw [missingUnder?] at hmissing ⊢
      cases hget : tree.get? entry.1 with
      | none => rfl
      | some actual =>
        rw [hget] at hmissing
        exact ih _ hexpected hmissing
    exact missing?_mapping_eq_some_iff.2 ⟨hself.symm ▸ hne, congrArg mapping hself⟩
  | _ =>
    obtain ⟨-, rfl⟩ := (missing?_eq_some_iff (by simp)).1 h
    exact h

/-- What a tree misses of a fragment, which is the empty mapping if that is nothing. -/
def remainder (fragment tree : Value) : Value :=
  (missing? fragment tree).getD (mapping [])

/-- A path leads into the remainder as it leads into what is missing. -/
theorem getPath?_remainder (fragment tree : Value) {path : List String} (hpath : path ≠ []) :
    (remainder fragment tree).getPath? path =
      (missing? fragment tree).bind fun part => part.getPath? path := by
  obtain ⟨key, path, rfl⟩ := List.exists_cons_of_ne_nil hpath
  rw [remainder]
  cases missing? fragment tree <;> rfl

/-- The remainder of a mapping is exactly what the tree does not have of it: a path leads to a leaf of
the remainder if it leads to the leaf in the mapping and to nothing equal in the tree, and to an empty
mapping if it leads to one in the mapping and nowhere in the tree. The remainder of the remainder is
the remainder. -/
theorem remainder_exact {wanted : List (String × Value)} (h : (mapping wanted).Distinct)
    (tree : Value) :
    (∀ path leaf, path ≠ [] → (∀ entries, leaf ≠ mapping entries) →
      ((remainder (mapping wanted) tree).getPath? path = some leaf ↔
        (mapping wanted).getPath? path = some leaf ∧
          ∀ found, tree.getPath? path = some found → leaf.same found = false)) ∧
    (∀ path, path ≠ [] →
      ((remainder (mapping wanted) tree).getPath? path = some (mapping []) ↔
        (mapping wanted).getPath? path = some (mapping []) ∧ tree.getPath? path = none)) ∧
    missing? (remainder (mapping wanted) tree) tree = missing? (mapping wanted) tree := by
  refine ⟨?_, ?_, ?_⟩
  · intro path leaf hpath hleaf
    rw [getPath?_remainder _ _ hpath]
    exact bind_getPath?_missing?_eq_leaf_iff hleaf h tree path
  · intro path hpath
    rw [getPath?_remainder _ _ hpath]
    exact bind_getPath?_missing?_eq_empty_iff h tree path
  · rw [remainder]
    cases hmissing : missing? (mapping wanted) tree with
    | none => rfl
    | some part => exact missing?_of_missing? hmissing

/-- Of a mapping of zeros and lists, a tree with the other zero misses the empty mapping below the
same key and the list in another order; the remainder is what stays missing. -/
theorem remainder_exact_nested :
    let wanted := [("a", mapping [("x", scalar (.float ⟨0⟩)), ("y", mapping [])]),
      ("b", sequence [scalar (.int 2), scalar (.int 3)])]
    let tree := mapping [("b", sequence [scalar (.int 3), scalar (.int 2)]),
      ("a", mapping [("x", scalar (.float ⟨0x8000000000000000⟩))])]
    (mapping wanted).Distinct ∧
      (remainder (mapping wanted) tree).getPath? ["a", "x"] ≠ some (scalar (.float ⟨0⟩)) ∧
      (remainder (mapping wanted) tree).getPath? ["a", "y"] = some (mapping []) ∧
      (remainder (mapping wanted) tree).getPath? ["b"] =
        some (sequence [scalar (.int 2), scalar (.int 3)]) ∧
      missing? (remainder (mapping wanted) tree) tree = missing? (mapping wanted) tree := by
  intro wanted tree
  have hdistinct : (mapping wanted).Distinct := by
    simp [wanted, Distinct, DistinctEntries, DistinctItems, Entries.keys]
  obtain ⟨hleaf, hempty, hself⟩ := remainder_exact hdistinct tree
  refine ⟨hdistinct, ?_, ?_, ?_, hself⟩
  · rw [ne_eq, hleaf _ _ (by simp) (by simp)]
    rintro ⟨-, hfound⟩
    exact absurd (hfound _ rfl) (by decide +kernel)
  · rw [hempty _ (by simp)]
    exact ⟨rfl, rfl⟩
  · rw [hleaf _ _ (by simp) (by simp)]
    refine ⟨rfl, fun found hfound => ?_⟩
    obtain rfl : sequence [scalar (.int 3), scalar (.int 2)] = found := Option.some.inj hfound
    decide +kernel

end NeonAudit.Value
