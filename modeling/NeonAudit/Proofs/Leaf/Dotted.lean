import NeonAudit.Audit.Validate
import NeonAudit.Proofs.Leaf.Place
import NeonAudit.Proofs.Number.Digits
import NeonAudit.Proofs.Text.Split

/-!
# Names of leaves

The name of a leaf is made of the keys and indices that lead to it, with points between them. Where
the keys are not empty and have no points, the parts of a name are these keys and indices again: they
lead back to the leaf, and since no collection uses one of them twice, different leaves have
different names. The leaves with their names are then the entries of a mapping, and the mapping has
the same leaves.
-/

namespace NeonAudit

namespace Leaf

/-- The key can be found again in a name: it is not empty and has no points. -/
def IsPlain (key : String) : Prop :=
  key ≠ "" ∧ '.' ∉ key.toList

instance : DecidablePred IsPlain := fun _ => instDecidableAnd

/-- The parts of a name between its points. -/
def partsOf (name : String) : List String :=
  (Text.split '.' name.toList).map String.ofList

/-- Indices can be found again in names. -/
theorem isPlain_indexSegment (index : Nat) : IsPlain (indexSegment index) := by
  constructor
  · intro hempty
    have hnil := congrArg String.toList hempty
    rw [indexSegment, String.toList_ofList] at hnil
    exact decimalText_ne_nil index hnil
  · intro hpoint
    rw [indexSegment, String.toList_ofList] at hpoint
    exact absurd (isDigit_of_mem_decimalText hpoint) (by decide)

/-- A key of the document itself is its name. -/
theorem joinKey_empty (segment : String) : joinKey "" segment = segment :=
  if_pos rfl

/-- A name with more keys and indices is their texts with points between them. -/
theorem toList_foldl_joinKey {base : String} (hbase : base ≠ "") (names : List String) :
    (names.foldl joinKey base).toList =
      ['.'].intercalate (base.toList :: names.map String.toList) := by
  induction names generalizing base with
  | nil => rw [List.foldl_nil, List.map_nil, List.intercalate_singleton]
  | cons name names ih =>
    have hjoin : joinKey base name = base ++ "." ++ name := if_neg hbase
    have htext : (joinKey base name).toList = base.toList ++ '.' :: name.toList := by
      simp [hjoin]
    have hne : joinKey base name ≠ "" := by
      intro hempty
      simp [hempty] at htext
    rw [List.foldl_cons, ih hne, htext, List.map_cons, List.intercalate_cons_cons]
    cases names <;> simp [List.intercalate_cons_cons]

/-- Keys and indices are found again in the name that they make. -/
theorem partsOf_foldl_joinKey {names : List String} (hne : names ≠ [])
    (h : ∀ name ∈ names, IsPlain name) : partsOf (names.foldl joinKey "") = names := by
  obtain ⟨first, rest, rfl⟩ := List.exists_cons_of_ne_nil hne
  have hfirst : first ≠ "" := (h first List.mem_cons_self).1
  rw [partsOf, List.foldl_cons, joinKey_empty, toList_foldl_joinKey hfirst, ← List.map_cons]
  exact Text.map_ofList_split_intercalate hne fun name hname => (h name hname).2

end Leaf

namespace Value

/-- The keys of the mappings outside of entities can be found again in names. -/
inductive HasPlainKeys : Value → Prop
  | leaf {value} : value.isLeaf = true → HasPlainKeys value
  | sequence {items} : (∀ item ∈ items, HasPlainKeys item) → HasPlainKeys (sequence items)
  | mapping {entries} : (∀ key ∈ Entries.keys entries, Leaf.IsPlain key) →
      (∀ entry ∈ entries, HasPlainKeys entry.2) → HasPlainKeys (mapping entries)

/-- The member of a collection with the given key or index. An index is read as a number. -/
def child? : Value → (part : String) → Option Value
  | sequence items, part => (readDigits? 10 part.toList).bind fun index => items[index]?
  | mapping entries, part => Entries.get? entries part
  | _, _ => none

/-- The value to which keys and indices lead. -/
def walk? : Value → (parts : List String) → Option Value
  | value, [] => some value
  | value, part :: parts => (value.child? part).bind fun child => child.walk? parts

variable {value : Value} {position : Nat} {child : String × Value}

/-- The members of a sequence are its items with their indices. -/
theorem getElem?_children_sequence_eq_some_iff {items : List Value} :
    (sequence items).children[position]? = some child ↔
      child.1 = Leaf.indexSegment position ∧ items[position]? = some child.2 := by
  rw [children, List.getElem?_map, List.getElem?_zipIdx, Option.map_map, Option.map_eq_some_iff]
  simp only [Function.comp_apply, Nat.zero_add, Prod.ext_iff]
  grind

/-- What holds of the keys and values of a collection holds of its members. -/
theorem HasPlainKeys.of_children (h : value.HasPlainKeys)
    (hchild : value.children[position]? = some child) :
    Leaf.IsPlain child.1 ∧ child.2.HasPlainKeys := by
  cases h with
  | leaf hleaf => simp [children_of_isLeaf hleaf] at hchild
  | sequence hitems =>
    obtain ⟨hkey, hitem⟩ := getElem?_children_sequence_eq_some_iff.1 hchild
    exact ⟨hkey ▸ Leaf.isPlain_indexSegment position, hitems _ (List.mem_of_getElem? hitem)⟩
  | mapping hkeys hentries =>
    have hmem : child ∈ _ := List.mem_of_getElem? hchild
    exact ⟨hkeys child.1 (List.mem_map_of_mem hmem), hentries child hmem⟩

/-- Where no mapping of a value repeats a key, none of its members does. -/
theorem Distinct.of_children (h : value.Distinct)
    (hchild : value.children[position]? = some child) : child.2.Distinct := by
  cases value with
  | sequence items =>
    obtain ⟨-, hitem⟩ := getElem?_children_sequence_eq_some_iff.1 hchild
    exact distinct_of_mem h (List.mem_of_getElem? hitem)
  | mapping entries => exact distinctEntries_iff.1 h.2 child (List.mem_of_getElem? hchild)
  | _ => simp [children] at hchild

/-- A member is found under its key or index. -/
theorem child?_of_children (h : value.Distinct)
    (hchild : value.children[position]? = some child) : value.child? child.1 = some child.2 := by
  cases value with
  | sequence items =>
    obtain ⟨hkey, hitem⟩ := getElem?_children_sequence_eq_some_iff.1 hchild
    rw [child?, hkey, Leaf.indexSegment, String.toList_ofList, readDigits?_decimalText,
      Option.bind_some, hitem]
  | mapping entries => exact (Entries.get?_eq_some_iff h.1).2 (List.mem_of_getElem? hchild)
  | _ => simp [children] at hchild

/-- Different members have different keys or indices. -/
theorem position_eq_of_children (h : value.Distinct) {position' : Nat} {child' : String × Value}
    (hchild : value.children[position]? = some child)
    (hchild' : value.children[position']? = some child') (hkey : child.1 = child'.1) :
    position = position' := by
  cases value with
  | sequence items =>
    obtain ⟨hindex, -⟩ := getElem?_children_sequence_eq_some_iff.1 hchild
    obtain ⟨hindex', -⟩ := getElem?_children_sequence_eq_some_iff.1 hchild'
    rw [hindex, hindex'] at hkey
    exact decimalText_injective (String.ofList_injective hkey)
  | mapping entries =>
    have hentry : (Entries.keys entries)[position]? = some child.1 :=
      List.getElem?_map.trans (congrArg (Option.map Prod.fst) hchild)
    have hentry' : (Entries.keys entries)[position']? = some child'.1 :=
      List.getElem?_map.trans (congrArg (Option.map Prod.fst) hchild')
    have hlt := (List.getElem?_eq_some_iff.1 hentry).1
    exact (List.getElem?_inj hlt h.1).1 (by rw [hentry, hentry', hkey])
  | _ => simp [children] at hchild

variable {place : List Nat} {names : List String} {node : Value}

/-- Plain keys, and indices, lead to a place. -/
theorem isPlain_of_locate? (h : value.HasPlainKeys) (hnode : value.locate? place = some (names, node)) :
    ∀ name ∈ names, Leaf.IsPlain name := by
  induction place generalizing value names with
  | nil =>
    obtain ⟨rfl, -⟩ := Prod.mk.inj (Option.some.inj hnode)
    exact fun name hname => absurd hname List.not_mem_nil
  | cons position place ih =>
    obtain ⟨child, rest, hchild, hrest, rfl⟩ := locate?_cons_eq_some_iff.1 hnode
    obtain ⟨hkey, hplain⟩ := h.of_children hchild
    exact List.forall_mem_cons.2 ⟨hkey, ih hplain hrest⟩

/-- The keys and indices of a place lead to the node there. -/
theorem walk?_of_locate? (h : value.Distinct) (hnode : value.locate? place = some (names, node)) :
    value.walk? names = some node := by
  induction place generalizing value names with
  | nil =>
    obtain ⟨rfl, rfl⟩ := Prod.mk.inj (Option.some.inj hnode)
    rfl
  | cons position place ih =>
    obtain ⟨child, rest, hchild, hrest, rfl⟩ := locate?_cons_eq_some_iff.1 hnode
    rw [walk?, child?_of_children h hchild, Option.bind_some, ih (h.of_children hchild) hrest]

/-- The same keys and indices lead to the same place. -/
theorem place_eq_of_locate? (h : value.Distinct) {place' : List Nat} {node' : Value}
    (hnode : value.locate? place = some (names, node))
    (hnode' : value.locate? place' = some (names, node')) : place = place' := by
  induction place generalizing value names place' with
  | nil =>
    obtain ⟨rfl, -⟩ := Prod.mk.inj (Option.some.inj hnode)
    cases place' with
    | nil => rfl
    | cons position' place' =>
      obtain ⟨child, rest, -, -, hnames⟩ := locate?_cons_eq_some_iff.1 hnode'
      contradiction
  | cons position place ih =>
    obtain ⟨child, rest, hchild, hrest, rfl⟩ := locate?_cons_eq_some_iff.1 hnode
    cases place' with
    | nil =>
      obtain ⟨hnames, -⟩ := Prod.mk.inj (Option.some.inj hnode')
      contradiction
    | cons position' place' =>
      obtain ⟨child', rest', hchild', hrest', hnames⟩ := locate?_cons_eq_some_iff.1 hnode'
      obtain ⟨hkey, rfl⟩ := List.cons.inj hnames
      obtain rfl := position_eq_of_children h hchild hchild' hkey.symm
      obtain rfl := Option.some.inj (hchild.symm.trans hchild')
      rw [ih (h.of_children hchild) hrest hrest']

variable {leaf : Leaf}

/-- The parts of the name of a leaf of a collection are the keys and indices that lead to it. -/
theorem locate?_of_leafAt (h : value.HasPlainKeys) (hvalue : value.isLeaf = false)
    (hleaf : value.LeafAt "" place leaf) :
    value.locate? place = some (Leaf.partsOf leaf.key, leaf.value) := by
  obtain ⟨names, node, hnode, hnodeLeaf, rfl⟩ := hleaf
  have hne : names ≠ [] := by
    rintro rfl
    cases place with
    | nil =>
      obtain ⟨-, rfl⟩ := Prod.mk.inj (Option.some.inj hnode)
      exact Bool.false_ne_true (hvalue.symm.trans hnodeLeaf)
    | cons position place =>
      obtain ⟨child, rest, -, -, hnames⟩ := locate?_cons_eq_some_iff.1 hnode
      contradiction
  rw [hnode, Leaf.of, Leaf.partsOf_foldl_joinKey hne (isPlain_of_locate? h hnode)]

/-- The parts of the name of a leaf of a collection lead back to it. -/
theorem walk?_partsOf (hdistinct : value.Distinct) (hplain : value.HasPlainKeys)
    (hvalue : value.isLeaf = false) (hleaf : leaf ∈ value.leaves) :
    value.walk? (Leaf.partsOf leaf.key) = some leaf.value := by
  obtain ⟨place, hplace⟩ := mem_below_iff.1 hleaf
  exact walk?_of_locate? hdistinct (locate?_of_leafAt hplain hvalue hplace)

/-- Leaves of the same name stand at the same place. -/
theorem place_eq_of_leafAt (hdistinct : value.Distinct) (hplain : value.HasPlainKeys)
    {place' : List Nat} {leaf' : Leaf} (hleaf : value.LeafAt "" place leaf)
    (hleaf' : value.LeafAt "" place' leaf') (hkey : leaf.key = leaf'.key) : place = place' := by
  cases hvalue : value.isLeaf with
  | true =>
    obtain ⟨rfl, -⟩ := (leafAt_of_isLeaf hvalue).1 hleaf
    obtain ⟨rfl, -⟩ := (leafAt_of_isLeaf hvalue).1 hleaf'
    rfl
  | false =>
    have hnode := locate?_of_leafAt hplain hvalue hleaf
    have hnode' := locate?_of_leafAt hplain hvalue hleaf'
    rw [hkey] at hnode
    exact place_eq_of_locate? hdistinct hnode hnode'

/-- Different leaves have different names. -/
theorem nodup_keys_leaves (hdistinct : value.Distinct) (hplain : value.HasPlainKeys) :
    (value.leaves.map Leaf.key).Nodup := by
  obtain ⟨found, hfound, hleaves⟩ := exists_enumerates value ""
  rw [leaves, ← hleaves, List.map_map, List.Nodup, List.pairwise_map]
  refine hfound.sorted.imp_of_mem fun {first second} hfirst hsecond hlt hkey => ?_
  have hplace := place_eq_of_leafAt hdistinct hplain ((hfound.mem_iff _ _).1 hfirst)
    ((hfound.mem_iff _ _).1 hsecond) hkey
  rw [hplace] at hlt
  exact List.lt_irrefl _ hlt

/-- A listed leaf is a leaf, and marked if it is a scalar. -/
theorem isLeaf_of_mem_leaves (h : leaf ∈ value.leaves) :
    leaf.value.isLeaf = true ∧ leaf = .of leaf.key leaf.value := by
  obtain ⟨place, names, node, -, hnode, rfl⟩ := mem_below_iff.1 h
  exact ⟨hnode, rfl⟩

/-- A mapping of leaves to their names, which differ, has these leaves. -/
theorem leaves_mapping_leaves (h : (value.leaves.map Leaf.key).Nodup) :
    (mapping (Entries.ofList (value.leaves.map fun leaf => (leaf.key, leaf.value)))).leaves =
      value.leaves := by
  have hkeys : (Entries.keys (value.leaves.map fun leaf => (leaf.key, leaf.value))).Nodup := by
    rw [Entries.keys, List.map_map]
    exact h
  rw [Entries.ofList_of_nodup hkeys, leaves, below_eq_flatMap_children rfl, children,
    List.flatMap_map]
  calc
    _ = value.leaves.flatMap fun leaf => [leaf] := by
      refine List.flatMap_congr fun leaf hleaf => ?_
      obtain ⟨hvalue, heq⟩ := isLeaf_of_mem_leaves hleaf
      rw [Leaf.joinKey_empty, below_of_isLeaf hvalue, ← heq]
    _ = value.leaves := List.flatMap_singleton' _

/-- A leaf is either a scalar or an object. -/
theorem isObject_eq_not_isScalar (h : value.isLeaf = true) : value.isObject = !value.isScalar := by
  cases value with
  | sequence items => contradiction
  | mapping entries => contradiction
  | _ => rfl

/-- The leaves of a document are listed at their places, each once and depth first, and marked if
they are scalars; a strict validation of a source reports those that are objects, in this order. If
no mapping repeats a key, and the keys are not empty and have no points, different leaves have
different names, the parts of the name of a leaf of a collection lead back to it, and the mapping of
the leaves under their names has the same leaves again. -/
theorem leaves_enumerate (tree : Value) :
    (∃ found, Enumerates found tree "" ∧ found.map Prod.snd = tree.leaves) ∧
      (∀ leaf ∈ tree.leaves, leaf.scalar = true ↔ ∃ s, leaf.value = scalar s) ∧
      (∀ file source, decode source = .ok tree →
        ValidateMode.strictScalar.failuresOfSource file source =
          .ok ((tree.leaves.filter fun leaf => leaf.value.isObject).map fun leaf =>
            .nonScalar ⟨file, leaf.key, leaf.value.encode⟩)) ∧
      (tree.Distinct → tree.HasPlainKeys →
        (tree.leaves.map Leaf.key).Nodup ∧
          (tree.isLeaf = false → ∀ leaf ∈ tree.leaves,
            tree.walk? (Leaf.partsOf leaf.key) = some leaf.value) ∧
          (mapping (Entries.ofList (tree.leaves.map fun leaf => (leaf.key, leaf.value)))).leaves =
            tree.leaves) := by
  have hscalar {leaf : Leaf} (hleaf : leaf ∈ tree.leaves) :
      leaf.scalar = leaf.value.isScalar := by
    rw [(isLeaf_of_mem_leaves hleaf).2]
    rfl
  refine ⟨exists_enumerates tree "", fun leaf hleaf => ?_, fun file source hdecode => ?_,
    fun hdistinct hplain => ?_⟩
  · rw [hscalar hleaf]
    cases leaf.value <;> simp [isScalar]
  · have hobjects : tree.objectLeaves = tree.leaves.filter fun leaf => leaf.value.isObject := by
      refine List.filter_congr fun leaf hleaf => ?_
      rw [hscalar hleaf, isObject_eq_not_isScalar (isLeaf_of_mem_leaves hleaf).1]
    have hsource : decodeSource file source = .ok (.ok tree) := by rw [decodeSource, hdecode]
    rw [ValidateMode.failuresOfSource, hsource, ← hobjects]
    rfl
  · have hkeys := nodup_keys_leaves hdistinct hplain
    exact ⟨hkeys, fun hcollection _ => walk?_partsOf hdistinct hplain hcollection,
      leaves_mapping_leaves hkeys⟩

/-- A document with two lists of members, an entity and a day. -/
def branching : Value :=
  .mapping [
    ("db", .sequence [.string "a", .entity (.string "e") (.mapping [("k", .null)])]),
    ("7", .mapping [("since", .dateTime ⟨⟨2020, 1, 1, by decide⟩, .midnight, none⟩)])]

/-- The leaves of the document are named by the ways to them, and two of them are reported. -/
theorem leaves_enumerate_branching :
    ∃ source, decode source = .ok branching ∧
      branching.leaves.map Leaf.key = ["db.0", "db.1", "7.since"] ∧
        ValidateMode.strictScalar.failuresOfSource "site.neon" source =
          .ok [.nonScalar ⟨"site.neon", "db.1", "e(k: null)"⟩,
            .nonScalar ⟨"site.neon", "7.since", "2020-01-01 00:00:00"⟩] ∧
          (branching.leaves.map Leaf.key).Nodup ∧
            ∀ leaf ∈ branching.leaves,
              branching.walk? (Leaf.partsOf leaf.key) = some leaf.value := by
  have hdecode : decode "\x7bdb: [a, e(k: null)], 7: \x7bsince: 2020-01-01\x7d\x7d" =
      .ok branching := by with_unfolding_all rfl
  have hdistinct : branching.Distinct :=
    ⟨by decide, ⟨trivial, ⟨trivial, by decide, trivial, trivial⟩, trivial⟩,
      ⟨by decide, trivial, trivial⟩, trivial⟩
  have hplain : branching.HasPlainKeys := by
    refine .mapping (by decide) (List.forall_mem_cons.2 ⟨.sequence ?_, List.forall_mem_singleton.2
      (.mapping (by decide) (List.forall_mem_singleton.2 (.leaf rfl)))⟩)
    exact List.forall_mem_cons.2 ⟨.leaf rfl, List.forall_mem_singleton.2 (.leaf rfl)⟩
  obtain ⟨-, -, hstrict, hnames⟩ := leaves_enumerate branching
  obtain ⟨hnodup, hwalk, -⟩ := hnames hdistinct hplain
  have hkeys : branching.leaves.map Leaf.key = ["db.0", "db.1", "7.since"] := by decide +kernel
  exact ⟨_, hdecode, hkeys, (hstrict "site.neon" _ hdecode).trans
    (congrArg Except.ok (by decide +kernel)), hnodup, hwalk rfl⟩

end Value

end NeonAudit
