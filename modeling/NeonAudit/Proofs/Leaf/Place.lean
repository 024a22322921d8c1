import NeonAudit.Leaf
import NeonAudit.Proofs.Entries
import NeonAudit.Proofs.Part

/-!
# Leaves and their places

A node of a document has a place: the positions, among the members of the collections on the way, of
the members that lead to it. A document that is walked through depth first is walked through in the
lexicographic order of the places. The leaves are listed in this order, each of them once. This is
shown for one collection by adding its members one after another, and then by induction over the
nodes.
-/

namespace NeonAudit.Value

/-- Whether the value is neither a sequence nor a mapping. -/
def isLeaf : Value → Bool
  | sequence _ => false
  | mapping _ => false
  | _ => true

@[simp] theorem isLeaf_sequence (items : List Value) : (sequence items).isLeaf = false := rfl

@[simp] theorem isLeaf_mapping (entries : List (String × Value)) :
    (mapping entries).isLeaf = false := rfl

/-- Whether the value is a leaf that is not a scalar. -/
def isObject : Value → Bool
  | entity _ _ => true
  | chain _ => true
  | dateTime _ => true
  | _ => false

/-- The members of a collection in their order, each with its key or its index. -/
def children : Value → List (String × Value)
  | sequence items => items.zipIdx.map fun item => (Leaf.indexSegment item.2, item.1)
  | mapping entries => entries
  | _ => []

/-- The node at a place with the keys and indices that lead to it. -/
def locate? : Value → (place : List Nat) → Option (List String × Value)
  | value, [] => some ([], value)
  | value, position :: place =>
    value.children[position]?.bind fun child =>
      (child.2.locate? place).map fun found => (child.1 :: found.1, found.2)

/-- There is a leaf at a place of a node, and it is named by the name of the node and the keys and
indices that lead from there to it. -/
def LeafAt (value : Value) (base : String) (place : List Nat) (leaf : Leaf) : Prop :=
  ∃ names node, value.locate? place = some (names, node) ∧ node.isLeaf = true ∧
    leaf = .of (names.foldl Leaf.joinKey base) node

/-- Leaves with their places are all those of a node of the given name, in the order of the
places. -/
structure Enumerates (found : List (List Nat × Leaf)) (value : Value) (base : String) : Prop where
  /-- Every place comes before the later ones. -/
  sorted : found.Pairwise fun first second => first.1 < second.1
  /-- The leaves stand at their places, and there are no others. -/
  mem_iff : ∀ place leaf, (place, leaf) ∈ found ↔ value.LeafAt base place leaf

variable {value : Value} {base : String} {place : List Nat} {leaf : Leaf}

/-- What is below a node is below one of its members. -/
theorem locate?_cons_eq_some_iff {position : Nat} {names : List String} {node : Value} :
    value.locate? (position :: place) = some (names, node) ↔
      ∃ child rest, value.children[position]? = some child ∧
        child.2.locate? place = some (rest, node) ∧ child.1 :: rest = names := by
  rw [locate?, Option.bind_eq_some_iff]
  refine exists_congr fun child => ?_
  rw [Option.map_eq_some_iff]
  grind

/-- Only a leaf has itself as a leaf. -/
theorem leafAt_nil_iff : value.LeafAt base [] leaf ↔ value.isLeaf = true ∧ leaf = .of base value := by
  constructor
  · rintro ⟨names, node, hnode, hleaf⟩
    obtain ⟨rfl, rfl⟩ := Prod.mk.inj (Option.some.inj hnode)
    exact hleaf
  · rintro ⟨hleaf, rfl⟩
    exact ⟨[], value, rfl, hleaf, rfl⟩

/-- A leaf below a node is a leaf of one of its members. -/
theorem leafAt_cons_iff {position : Nat} :
    value.LeafAt base (position :: place) leaf ↔
      ∃ child, value.children[position]? = some child ∧
        child.2.LeafAt (Leaf.joinKey base child.1) place leaf := by
  constructor
  · rintro ⟨names, node, hnode, hleaf, rfl⟩
    obtain ⟨child, rest, hchild, hrest, rfl⟩ := locate?_cons_eq_some_iff.1 hnode
    exact ⟨child, hchild, rest, node, hrest, hleaf, rfl⟩
  · rintro ⟨child, hchild, rest, node, hrest, hleaf, rfl⟩
    exact ⟨child.1 :: rest, node, locate?_cons_eq_some_iff.2 ⟨child, rest, hchild, hrest, rfl⟩,
      hleaf, rfl⟩

/-- A leaf has no members. -/
theorem children_of_isLeaf (h : value.isLeaf = true) : value.children = [] := by
  cases value with
  | sequence items => contradiction
  | mapping entries => contradiction
  | _ => rfl

/-- The only leaf of a leaf is the leaf itself. -/
theorem leafAt_of_isLeaf (h : value.isLeaf = true) :
    value.LeafAt base place leaf ↔ place = [] ∧ leaf = .of base value := by
  cases place with
  | nil => simp [leafAt_nil_iff, h]
  | cons position place => simp [leafAt_cons_iff, children_of_isLeaf h]

/-- A collection has the leaves of the mapping with the same members. -/
theorem leafAt_mapping_children (h : value.isLeaf = false) :
    (mapping value.children).LeafAt base place leaf ↔ value.LeafAt base place leaf := by
  cases place with
  | nil => simp [leafAt_nil_iff, h]
  | cons position place =>
    rw [leafAt_cons_iff, leafAt_cons_iff]
    rfl

/-- A mapping with one more entry has the leaves that it had and those of the entry. -/
theorem leafAt_concat_iff {entries : List (String × Value)} {entry : String × Value} :
    (mapping (entries ++ [entry])).LeafAt base place leaf ↔
      (mapping entries).LeafAt base place leaf ∨
        ∃ rest, place = entries.length :: rest ∧
          entry.2.LeafAt (Leaf.joinKey base entry.1) rest leaf := by
  cases place with
  | nil => simp [leafAt_nil_iff]
  | cons position place =>
    simp only [leafAt_cons_iff, children, Entries.getElem?_concat_eq_some_iff]
    grind

/-- A leaf of a mapping is in one of its entries. -/
theorem exists_lt_of_leafAt {entries : List (String × Value)}
    (h : (mapping entries).LeafAt base place leaf) :
    ∃ position rest, place = position :: rest ∧ position < entries.length := by
  cases place with
  | nil => exact absurd (leafAt_nil_iff.1 h).1 Bool.false_ne_true
  | cons position rest =>
    obtain ⟨child, hchild, -⟩ := leafAt_cons_iff.1 h
    exact ⟨position, rest, rfl, (List.getElem?_eq_some_iff.1 hchild).1⟩

/-- The only leaf of a leaf is listed. -/
theorem Enumerates.of_isLeaf (h : value.isLeaf = true) (base : String) :
    Enumerates [([], .of base value)] value base where
  sorted := List.pairwise_singleton _ _
  mem_iff place leaf := by rw [List.mem_singleton, Prod.mk.injEq, leafAt_of_isLeaf h]

/-- The leaves of one more entry are listed after those of the entries before it. -/
theorem Enumerates.concat {entries : List (String × Value)} {entry : String × Value}
    {before last : List (List Nat × Leaf)} (hbefore : Enumerates before (mapping entries) base)
    (hlast : Enumerates last entry.2 (Leaf.joinKey base entry.1)) :
    Enumerates (before ++ last.map fun found => (entries.length :: found.1, found.2))
      (mapping (entries ++ [entry])) base where
  sorted := by
    rw [List.pairwise_append, List.pairwise_map]
    refine ⟨hbefore.sorted, hlast.sorted.imp List.cons_lt_cons_self.2, ?_⟩
    intro first hfirst second hsecond
    obtain ⟨position, rest, hplace, hlt⟩ :=
      exists_lt_of_leafAt ((hbefore.mem_iff first.1 first.2).1 hfirst)
    obtain ⟨found, -, rfl⟩ := List.mem_map.1 hsecond
    rw [hplace]
    exact List.cons_lt_cons_iff.2 (.inl hlt)
  mem_iff place leaf := by
    rw [List.mem_append, hbefore.mem_iff, leafAt_concat_iff, List.mem_map]
    refine or_congr_right ⟨?_, ?_⟩
    · rintro ⟨found, hfound, heq⟩
      obtain ⟨rfl, rfl⟩ := Prod.mk.inj heq
      exact ⟨found.1, rfl, (hlast.mem_iff _ _).1 hfound⟩
    · rintro ⟨rest, rfl, hrest⟩
      exact ⟨(rest, leaf), (hlast.mem_iff rest leaf).2 hrest, rfl⟩

/-- Where the leaves of its members are listed, those of a collection are listed one member after
another. -/
theorem exists_enumerates_of_children (hvalue : value.isLeaf = false)
    (h : ∀ child ∈ value.children, ∀ base,
      ∃ found, Enumerates found child.2 base ∧ found.map Prod.snd = Leaf.below base child.2)
    (base : String) :
    ∃ found, Enumerates found value base ∧ found.map Prod.snd =
      value.children.flatMap fun child => Leaf.below (Leaf.joinKey base child.1) child.2 := by
  suffices hmapping : ∃ found, Enumerates found (mapping value.children) base ∧
      found.map Prod.snd =
        value.children.flatMap fun child => Leaf.below (Leaf.joinKey base child.1) child.2 by
    obtain ⟨found, hfound, hleaves⟩ := hmapping
    refine ⟨found, ⟨hfound.sorted, fun place leaf => ?_⟩, hleaves⟩
    rw [hfound.mem_iff, leafAt_mapping_children hvalue]
  generalize value.children = entries at h
  induction entries using List.reverseRecOn with
  | nil =>
    refine ⟨[], ⟨.nil, fun place leaf => ?_⟩, rfl⟩
    refine iff_of_false List.not_mem_nil fun hleaf => ?_
    obtain ⟨position, rest, -, hlt⟩ := exists_lt_of_leafAt hleaf
    exact Nat.not_lt_zero position hlt
  | append_singleton entries entry ih =>
    obtain ⟨before, hbefore, hleaves⟩ :=
      ih fun child hchild => h child (List.mem_append_left _ hchild)
    obtain ⟨last, hlast, hlastLeaves⟩ :=
      h entry (List.mem_append_right _ List.mem_cons_self) (Leaf.joinKey base entry.1)
    refine ⟨_, hbefore.concat hlast, ?_⟩
    rw [List.map_append, hleaves, List.map_map, List.flatMap_append, List.flatMap_singleton,
      ← hlastLeaves]
    rfl

/-- The leaves of entries are those of one entry after another. -/
theorem belowEntries_eq (base : String) (entries : List (String × Value)) :
    Leaf.belowEntries base entries =
      entries.flatMap fun child => Leaf.below (Leaf.joinKey base child.1) child.2 := by
  induction entries with
  | nil => rfl
  | cons entry entries ih => rw [Leaf.belowEntries, ih, List.flatMap_cons]

/-- The leaves of items are those of one item after another. -/
theorem belowItems_eq (base : String) (index : Nat) (items : List Value) :
    Leaf.belowItems base index items = (items.zipIdx index).flatMap fun item =>
      Leaf.below (Leaf.joinKey base (Leaf.indexSegment item.2)) item.1 := by
  induction items generalizing index with
  | nil => rfl
  | cons item items ih => rw [Leaf.belowItems, ih, List.zipIdx_cons, List.flatMap_cons]

/-- The leaves of a collection are those of one member after another. -/
theorem below_eq_flatMap_children (h : value.isLeaf = false) (base : String) :
    Leaf.below base value =
      value.children.flatMap fun child => Leaf.below (Leaf.joinKey base child.1) child.2 := by
  cases value with
  | sequence items => rw [Leaf.below, belowItems_eq, children, List.flatMap_map]
  | mapping entries => rw [Leaf.below, belowEntries_eq, children]
  | _ => contradiction

/-- The leaf of a leaf is the leaf itself. -/
theorem below_of_isLeaf (h : value.isLeaf = true) (base : String) :
    Leaf.below base value = [.of base value] := by
  cases value with
  | sequence items => contradiction
  | mapping entries => contradiction
  | _ => rw [Leaf.below]

/-- All leaves below a node are listed, in the order of their places. -/
theorem exists_enumerates (value : Value) (base : String) :
    ∃ found, Enumerates found value base ∧ found.map Prod.snd = Leaf.below base value := by
  induction value using induction_inside generalizing base with
  | hsequence items ih =>
    rw [below_eq_flatMap_children rfl]
    refine exists_enumerates_of_children (isLeaf_sequence items) (fun child hchild => ?_) base
    obtain ⟨item, hitem, rfl⟩ := List.mem_map.1 hchild
    exact ih item.1 (List.fst_mem_of_mem_zipIdx hitem)
  | hmapping entries ih =>
    rw [below_eq_flatMap_children rfl]
    exact exists_enumerates_of_children (isLeaf_mapping entries) ih base
  | _ =>
    rw [below_of_isLeaf rfl]
    exact ⟨_, .of_isLeaf rfl base, rfl⟩

/-- The leaves below a node are those at its places. -/
theorem mem_below_iff : leaf ∈ Leaf.below base value ↔ ∃ place, value.LeafAt base place leaf := by
  obtain ⟨found, hfound, hleaves⟩ := exists_enumerates value base
  rw [← hleaves, List.mem_map]
  constructor
  · rintro ⟨pair, hpair, rfl⟩
    exact ⟨pair.1, (hfound.mem_iff _ _).1 hpair⟩
  · rintro ⟨place, hplace⟩
    exact ⟨(place, leaf), (hfound.mem_iff _ _).2 hplace, rfl⟩

end NeonAudit.Value
