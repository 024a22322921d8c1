import NeonAudit.Value.Path

/-!
# Containment of trees

A fragment is contained in a tree if every key of a mapping of the fragment is found at the same
place of the tree, with an equal value where the fragment has a leaf or a sequence. Further keys of
the tree do not matter. What is not contained of a fragment is again a fragment.
-/

namespace NeonAudit.Value

mutual

/-- The part of a fragment that a tree does not contain. -/
def missing? : (fragment tree : Value) → Option Value
  | mapping wanted, tree =>
    let missing := missingEntries wanted tree
    if missing.isEmpty then none else some (mapping missing)
  | scalar s, tree => if same (scalar s) tree then none else some (scalar s)
  | sequence items, tree => if same (sequence items) tree then none else some (sequence items)
  | entity name arguments, tree =>
    if same (entity name arguments) tree then none else some (entity name arguments)
  | chain links, tree => if same (chain links) tree then none else some (chain links)
  | dateTime d, tree => if same (dateTime d) tree then none else some (dateTime d)

/-- The parts of the entries of a fragment that a tree does not contain under their keys. -/
def missingEntries : (wanted : List (String × Value)) → (tree : Value) → List (String × Value)
  | [], _ => []
  | (key, expected) :: wanted, tree =>
    match tree.get? key with
    | none => (key, expected) :: missingEntries wanted tree
    | some actual =>
      match missing? expected actual with
      | none => missingEntries wanted tree
      | some part => (key, part) :: missingEntries wanted tree

end

/-- Whether a tree contains a fragment. -/
def contains (tree fragment : Value) : Bool :=
  (missing? fragment tree).isNone

/-- Whether a path leads to a value of a tree. -/
def hasPath (tree : Value) (path : List String) : Bool :=
  (tree.getPath? path).isSome

end NeonAudit.Value
