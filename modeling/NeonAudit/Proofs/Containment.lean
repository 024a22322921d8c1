import NeonAudit.Proofs.Literal.Denoted
import NeonAudit.Rule.Containment

/-!
# Containment along paths

Whether a tree contains a fragment that is nested along a path is found out by walking the path in
the tree: it does exactly if the path leads to a value that contains what the fragment ends in. In
general, a mapping is contained key by key, and what is no mapping is contained in equal values only;
the latter holds of what a literal denotes.
-/

namespace NeonAudit.Value

/-- What is nested under a key is missing as a whole in a tree without the key, and otherwise as far
as it is missing in what the tree has there. -/
theorem missing?_single (key : String) (fragment tree : Value) :
    missing? (single key fragment) tree =
      ((tree.get? key).elim (some fragment) (missing? fragment)).map (single key) := by
  rw [single, missing?]
  cases hget : tree.get? key with
  | none => simp [missingEntries, hget, single]
  | some found =>
    cases hmissing : missing? fragment found with
    | none => simp [missingEntries, hget, hmissing]
    | some part => simp [missingEntries, hget, hmissing, single]

/-- What is nested under a key is contained in a tree that has under the key what contains it. -/
theorem contains_single (tree : Value) (key : String) (fragment : Value) :
    tree.contains (single key fragment) = (tree.get? key).any fun child =>
      child.contains fragment := by
  rw [contains, missing?_single, Option.isNone_map]
  cases tree.get? key with
  | none => rfl
  | some found => rfl

/-- What is nested along a path is contained in a tree in which the path leads to what contains
it. -/
theorem contains_nestAlong (path : List String) (tree fragment : Value) :
    tree.contains (nestAlong path fragment) = (tree.getPath? path).any fun found =>
      found.contains fragment := by
  induction path generalizing tree with
  | nil => rfl
  | cons key path ih =>
    calc
      tree.contains (nestAlong (key :: path) fragment) =
          (tree.get? key).any fun child => child.contains (nestAlong path fragment) :=
        contains_single tree key (nestAlong path fragment)
      _ = (tree.get? key).any fun child => (child.getPath? path).any fun found =>
          found.contains fragment := by
        simp only [ih]
      _ = (tree.getPath? (key :: path)).any fun found => found.contains fragment := by
        rw [getPath?_cons, Option.any_bind]
        rfl

/-- Nothing is missing of entries if the tree has under each of their keys what contains the value
there. -/
theorem missingEntries_eq_nil_iff {wanted : List (String × Value)} {tree : Value} :
    missingEntries wanted tree = [] ↔
      ∀ entry ∈ wanted, ∃ found, tree.get? entry.1 = some found ∧
        found.contains entry.2 = true := by
  induction wanted with
  | nil => simp [missingEntries]
  | cons entry wanted ih =>
    obtain ⟨key, expected⟩ := entry
    rw [List.forall_mem_cons, ← ih, missingEntries]
    cases tree.get? key with
    | none => simp
    | some found => cases hmissing : missing? expected found <;> simp [contains, hmissing]

/-- A mapping is contained in a tree that has under each of its keys what contains the value
there. -/
theorem contains_mapping_iff {tree : Value} {wanted : List (String × Value)} :
    tree.contains (mapping wanted) = true ↔
      ∀ entry ∈ wanted, ∃ found, tree.get? entry.1 = some found ∧
        found.contains entry.2 = true := by
  rw [← missingEntries_eq_nil_iff, contains, missing?]
  cases missingEntries wanted tree <;> simp

/-- Of what is no mapping, nothing is missing in what is equal to it, and all of it otherwise. -/
theorem missing?_of_ne_mapping {fragment : Value} (h : ∀ entries, fragment ≠ mapping entries)
    (tree : Value) :
    missing? fragment tree = if fragment.same tree then none else some fragment := by
  cases fragment with
  | mapping entries => exact absurd rfl (h entries)
  | _ => rw [missing?]

/-- What is no mapping is contained in what is equal to it only. -/
theorem contains_eq_same {fragment : Value} (h : ∀ entries, fragment ≠ mapping entries)
    (tree : Value) : tree.contains fragment = fragment.same tree := by
  rw [contains, missing?_of_ne_mapping h]
  cases fragment.same tree <;> rfl

/-- What a literal denotes is contained in the same value only. -/
theorem contains_ofLiteral {text : String} {fragment : Value} (h : ofLiteral text = .ok fragment)
    (tree : Value) : tree.contains fragment = fragment.same tree := by
  refine contains_eq_same (fun entries => ?_) tree
  rcases ofLiteral_cases h with rfl | ⟨s, rfl, -⟩ | ⟨d, rfl, -⟩ <;> exact Value.noConfusion

end NeonAudit.Value
