import NeonAudit.Proofs.Document.Layout
import NeonAudit.Proofs.Document.RoundTrip

/-!
# Decoding undoes laying out

An outline is a tree of collections with values at its leaves, together with a layout of each item.
Its text has one line for each entry and each item, and is decoded to its value: the lines of a
collection spell a block, by induction on the outline. The indentation is not part of an outline and
may be any spaces and tabs.
-/

namespace NeonAudit

/-- How an item is laid out. -/
structure Style where
  /-- The line end before the item is a carriage return and a line feed, not only a line feed. -/
  afterReturn : Bool
  /-- A sequence stands at the indentation of its key, and a collection on the line of its dash,
  not on deeper lines. -/
  tight : Bool

/-- A tree of collections that are not written on one line, with the layout of their items. -/
inductive Outline
  /-- A value on the line of its key or dash. -/
  | leaf (value : Value)
  /-- A mapping with a line for each entry. -/
  | mapping (entries : List (Style × String × Outline))
  /-- A sequence with a line for each item. -/
  | sequence (items : List (Style × Outline))

namespace Outline

/-- Whether the outline is a value on one line. -/
def isLeaf : Outline → Bool
  | leaf _ => true
  | _ => false

/-- Whether the outline has a dash on each line. -/
def isSequence : Outline → Bool
  | sequence _ => true
  | _ => false

mutual

/-- The value that is laid out. -/
def value : Outline → Value
  | leaf value => value
  | mapping entries => .mapping (entryValues entries)
  | sequence items => .sequence (itemValues items)

/-- The keys and values of entries. -/
def entryValues : List (Style × String × Outline) → List (String × Value)
  | [] => []
  | (_, key, child) :: entries => (key, value child) :: entryValues entries

/-- The values of items. -/
def itemValues : List (Style × Outline) → List Value
  | [] => []
  | (_, child) :: items => value child :: itemValues items

end

mutual

/-- No collection with a line for each item is empty. -/
def Filled : Outline → Prop
  | leaf _ => True
  | mapping entries => entries ≠ [] ∧ FilledEntries entries
  | sequence items => items ≠ [] ∧ FilledItems items

/-- No collection below the entries is empty. -/
def FilledEntries : List (Style × String × Outline) → Prop
  | [] => True
  | (_, _, child) :: entries => Filled child ∧ FilledEntries entries

/-- No collection below the items is empty. -/
def FilledItems : List (Style × Outline) → Prop
  | [] => True
  | (_, child) :: items => Filled child ∧ FilledItems items

end

mutual

/-- The lines of a collection of the given indentation, where deeper lines are indented by one unit
more. -/
def lines (unit indent : List Char) : Outline → List Line
  | leaf _ => []
  | mapping entries => entryLines unit indent entries
  | sequence items => itemLines unit indent items

/-- The lines of entries: a key and a colon before a value or a collection. -/
def entryLines (unit indent : List Char) : List (Style × String × Outline) → List Line
  | [] => []
  | (style, key, child) :: entries =>
    ⟨style.afterReturn, keyText key ++ ':' ::
      if child.isLeaf then ' ' :: child.value.text
      else if style.tight && child.isSequence then brokenText indent (lines unit indent child)
      else brokenText (indent ++ unit) (lines unit (indent ++ unit) child)⟩ ::
    entryLines unit indent entries

/-- The lines of items: a dash before a value or a collection. -/
def itemLines (unit indent : List Char) : List (Style × Outline) → List Line
  | [] => []
  | (style, child) :: items =>
    ⟨style.afterReturn, '-' ::
      if child.isLeaf then ' ' :: child.value.text
      else if style.tight then
        ' ' :: blockText (indent ++ [' ', ' ']) (lines unit (indent ++ [' ', ' ']) child)
      else brokenText (indent ++ unit) (lines unit (indent ++ unit) child)⟩ ::
    itemLines unit indent items

end

/-- The text of a collection that is a whole document. -/
def text (unit : List Char) (o : Outline) : List Char :=
  blockText [] (o.lines unit [])

/-- The items of a sequence that is laid out are some if its lines are. -/
theorem itemValues_ne_nil {items : List (Style × Outline)} (h : items ≠ []) :
    itemValues items ≠ [] := by
  cases items with
  | nil => contradiction
  | cons item items => exact List.cons_ne_nil _ _

/-- The entries of a mapping that is laid out are some if its lines are. -/
theorem entryValues_ne_nil {entries : List (Style × String × Outline)} (h : entries ≠ []) :
    entryValues entries ≠ [] := by
  cases entries with
  | nil => contradiction
  | cons entry entries => exact List.cons_ne_nil _ _

mutual

/-- The lines of a collection spell a block of it. -/
theorem spellsBlock_lines {unit : List Char} (hunit : IsIndent unit) (hne : unit ≠ []) :
    ∀ (o : Outline) {depth : Nat} {indent : List Char}, IsIndent indent → o.isLeaf = false →
      o.Filled → o.value.Spellable → o.value.Distinct → o.value.nest ≤ depth →
        SpellsBlock depth indent o.isSequence (o.lines unit indent) fun _ => .ok o.value
  | leaf _, _, _, _, hleaf, _, _, _, _ => Bool.noConfusion hleaf
  | mapping _, 0, _, _, _, _, _, _, hnest => absurd hnest (Nat.not_succ_le_zero _)
  | mapping entries, depth + 1, indent, hindent, _, hfilled, h, hdistinct, hnest => by
    have hentries := entryValues_ne_nil hfilled.1
    have hblock := spellsBlock_of_items hindent (by simpa using hentries)
      (spells_entryLines hunit hne entries hindent hfilled.2 h hdistinct.2
        (Nat.le_of_succ_le_succ hnest))
      (by rw [Item.keys_map_ofEntry]; exact hdistinct.1)
    rwa [Item.collect_map_ofEntry hdistinct.1 (.inl hentries)] at hblock
  | sequence _, 0, _, _, _, _, _, _, hnest => absurd hnest (Nat.not_succ_le_zero _)
  | sequence items, depth + 1, indent, hindent, _, hfilled, h, hdistinct, hnest => by
    have hitems := itemValues_ne_nil hfilled.1
    have hblock := spellsBlock_of_items hindent (by simpa using hitems)
      (spells_itemLines hunit hne items hindent hfilled.2 h hdistinct
        (Nat.le_of_succ_le_succ hnest))
      (by rw [Item.keys_map_ofValue]; exact List.nodup_nil)
    rwa [Item.collect_map_ofValue (.inl hitems)] at hblock

/-- The lines of entries spell the entries. -/
theorem spells_entryLines {unit : List Char} (hunit : IsIndent unit) (hne : unit ≠ []) :
    ∀ (entries : List (Style × String × Outline)) {depth : Nat} {indent : List Char},
      IsIndent indent → FilledEntries entries → Value.SpellableEntries (entryValues entries) →
        Value.DistinctEntries (entryValues entries) →
          Value.nestEntries (entryValues entries) ≤ depth →
            List.Forall₂ (SpellsLine depth indent false) (entryLines unit indent entries)
              (((entryValues entries).map Item.ofEntry).map Item.reading)
  | [], _, _, _, _, _, _, _ => .nil
  | (style, key, child) :: entries, depth, indent, hindent, hfilled, h, hdistinct, hnest => by
    have hdepth := Nat.max_le.1 hnest
    refine .cons ?_ (spells_entryLines hunit hne entries hindent hfilled.2 h.2 hdistinct.2 hdepth.2)
    cases hleaf : child.isLeaf with
    | true =>
      have hvalue := child.value.spelled_text h.1 hdistinct.1 hdepth.1
      exact (hvalue.mono fun hread => hread.1).keyLine (spellsKey_keyText key) style.afterReturn
    | false =>
      have hchild {inner : List Char} (hinner : IsIndent inner) :=
        spellsBlock_lines hunit hne child hinner hleaf hfilled.1 h.1 hdistinct.1 hdepth.1
      rw [if_neg Bool.false_ne_true]
      split
      · rename_i hflush
        have hsequence := (Bool.and_eq_true_iff.1 hflush).2
        have hblock := hchild hindent
        rw [hsequence] at hblock
        exact hblock.flushLine hindent (spellsKey_keyText key) style.afterReturn
      · exact (hchild (hindent.append hunit)).keyLine hindent hunit hne (spellsKey_keyText key)
          style.afterReturn

/-- The lines of items spell the items. -/
theorem spells_itemLines {unit : List Char} (hunit : IsIndent unit) (hne : unit ≠ []) :
    ∀ (items : List (Style × Outline)) {depth : Nat} {indent : List Char}, IsIndent indent →
      FilledItems items → Value.SpellableItems (itemValues items) →
        Value.DistinctItems (itemValues items) → Value.nestItems (itemValues items) ≤ depth →
          List.Forall₂ (SpellsLine depth indent true) (itemLines unit indent items)
            (((itemValues items).map Item.ofValue).map Item.reading)
  | [], _, _, _, _, _, _, _ => .nil
  | (style, child) :: items, depth, indent, hindent, hfilled, h, hdistinct, hnest => by
    have hdepth := Nat.max_le.1 hnest
    refine .cons ?_ (spells_itemLines hunit hne items hindent hfilled.2 h.2 hdistinct.2 hdepth.2)
    cases hleaf : child.isLeaf with
    | true =>
      have hvalue := child.value.spelled_text h.1 hdistinct.1 hdepth.1
      exact (hvalue.mono fun hread => hread.1).dashLine style.afterReturn
    | false =>
      have hchild {inner : List Char} (hinner : IsIndent inner) :=
        spellsBlock_lines hunit hne child hinner hleaf hfilled.1 h.1 hdistinct.1 hdepth.1
      rw [if_neg Bool.false_ne_true]
      split
      · exact (hchild (hindent.append isIndent_spaces)).compactLine style.afterReturn
      · exact (hchild (hindent.append hunit)).dashLine hindent hunit hne style.afterReturn

end

/-- The text of an outline is decoded to its value, whatever the unit of indentation, the layout of
its items and the ends of its lines. -/
theorem decode_text {o : Outline} {unit lineEnd : List Char} (hunit : IsIndent unit)
    (hne : unit ≠ []) (hleaf : o.isLeaf = false) (hfilled : o.Filled) (h : o.value.Spellable)
    (hdistinct : o.value.Distinct) (hnest : o.value.nest ≤ 256)
    (hend : isLineEnd lineEnd = true) :
    decode (String.ofList (o.text unit ++ lineEnd)) = .ok o.value := by
  have hindent : IsIndent [] := fun _ hc => absurd hc List.not_mem_nil
  obtain ⟨-, hblock⟩ := spellsBlock_lines hunit hne o hindent hleaf hfilled h hdistinct hnest
  have hdocument : Spelled (o.text unit) (ReadsDocument o.value) := by
    refine hblock.mono ?_
    rintro _ tokens hread rfl finish after hafter
    exact (hread rfl).read finish false (by simp) hafter.endsBlock
  rw [decode, String.toList_ofList]
  exact decodeChars_of_spelled hdocument hend

/-- Lines that end in both ways are decoded, with all layouts of collections inside each other. -/
theorem decode_text_tight :
    decode "list:\r\n- a: 1\r\n  b:\n  \tc: []\n-\n\t- \"x y\"\r\n\"d: e\": null\n" =
      .ok (.mapping [
        ("list", .sequence [
          .mapping [("a", .scalar (.int 1)), ("b", .mapping [("c", .sequence [])])],
          .sequence [.string "x y"]]),
        ("d: e", .null)]) := by
  have hdecode := @decode_text (.mapping [
      (⟨false, true⟩, "list", .sequence [
        (⟨true, true⟩, .mapping [
          (⟨false, false⟩, "a", .leaf (.scalar (.int 1))),
          (⟨true, false⟩, "b", .mapping [(⟨false, false⟩, "c", .leaf (.sequence []))])]),
        (⟨false, false⟩, .sequence [(⟨false, false⟩, .leaf (.string "x y"))])]),
      (⟨true, false⟩, "d: e", .leaf .null)]) ['\t'] ['\n']
    (by intro c hc; rw [List.mem_singleton.1 hc]; rfl) (List.cons_ne_nil _ _) rfl
    ⟨by simp, ⟨by simp, ⟨by simp, trivial, ⟨by simp, trivial, trivial⟩, trivial⟩,
      ⟨by simp, trivial, trivial⟩, trivial⟩, trivial, trivial⟩
    ⟨⟨⟨trivial, ⟨trivial, trivial⟩, trivial⟩, ⟨trivial, trivial⟩, trivial⟩, trivial, trivial⟩
    ⟨by decide, ⟨⟨by decide, trivial, ⟨by decide, trivial, trivial⟩, trivial⟩,
      ⟨trivial, trivial⟩, trivial⟩, trivial, trivial⟩
    (by decide) rfl
  exact (congrArg decode (by decide +kernel)).trans hdecode

end Outline

end NeonAudit
