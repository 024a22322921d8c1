import NeonAudit.Number.Digits
import NeonAudit.Value

/-!
# Leaves of a document

The leaves of a document are its nodes that are neither sequences nor mappings, in the order in
which they stand. A leaf is named by the keys and indices that lead to it, with points between them.
Scalars are the leaves that a strict document consists of.
-/

namespace NeonAudit

/-- A leaf with its name. -/
structure Leaf where
  /-- The keys and indices that lead to the leaf; empty for a document that is a leaf. -/
  key : String
  /-- The leaf itself. -/
  value : Value
  /-- Whether the leaf is a scalar. -/
  scalar : Bool

namespace Leaf

/-- The leaf of the given name, marked if it is a scalar. -/
def of (key : String) (value : Value) : Leaf :=
  ⟨key, value, value.isScalar⟩

/-- A name with one more key or index. -/
def joinKey (base segment : String) : String :=
  if base = "" then segment else base ++ "." ++ segment

/-- An index as part of a name. -/
def indexSegment (index : Nat) : String :=
  String.ofList (decimalText index)

mutual

/-- The leaves below a node of the given name. -/
def below (base : String) : Value → List Leaf
  | .mapping entries => belowEntries base entries
  | .sequence items => belowItems base 0 items
  | .scalar s => [of base (.scalar s)]
  | .entity name arguments => [of base (.entity name arguments)]
  | .chain links => [of base (.chain links)]
  | .dateTime d => [of base (.dateTime d)]

/-- The leaves below the entries of a node of the given name. -/
def belowEntries (base : String) : List (String × Value) → List Leaf
  | [] => []
  | (key, value) :: entries => below (joinKey base key) value ++ belowEntries base entries

/-- The leaves below the items of a node of the given name, counted from an index on. -/
def belowItems (base : String) : (index : Nat) → List Value → List Leaf
  | _, [] => []
  | index, value :: items =>
    below (joinKey base (indexSegment index)) value ++ belowItems base (index + 1) items

end

end Leaf

namespace Value

/-- The leaves of a document with their names. -/
def leaves (tree : Value) : List Leaf :=
  Leaf.below "" tree

/-- The leaves of a document that are objects. -/
def objectLeaves (tree : Value) : List Leaf :=
  tree.leaves.filter fun leaf => !leaf.scalar

end Value

end NeonAudit
