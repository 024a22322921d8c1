import NeonAudit.Proofs.Document.Outline

/-!
# Drafts of documents

A draft is an outline whose mappings may repeat keys, and whose keys may be written with quotes
where they need none. Its lines spell a block, but reading the block fails if a mapping repeats a
key: the value of an entry is read first, and then its key is compared with those before it. The
text before each key and the keys before it in its mapping are found by recursion on the draft.
-/

namespace NeonAudit

/-- The key of an entry with its layout. -/
structure Heading where
  /-- The key. -/
  key : String
  /-- The key is written with quotes even if it needs none. -/
  quoted : Bool
  /-- How the entry is laid out. -/
  style : Style

/-- The spelling of the key. -/
def Heading.text (heading : Heading) : List Char :=
  if heading.quoted then Text.quoted heading.key.toList else keyText heading.key

/-- The key is spelled with quotes and without. -/
theorem Heading.spellsKey (heading : Heading) : SpellsKey heading.text heading.key := by
  rw [Heading.text]
  split
  · exact spellsKey_quoted heading.key
  · exact spellsKey_keyText heading.key

/-- A tree of collections that are not written on one line, with the layout of their items. -/
inductive Draft
  /-- A value on the line of its key or dash. -/
  | leaf (value : Value)
  /-- A mapping with a line for each entry. -/
  | mapping (entries : List (Heading × Draft))
  /-- A sequence with a line for each item. -/
  | sequence (items : List (Style × Draft))

namespace Draft

/-- Whether the draft is a value on one line. -/
def isLeaf : Draft → Bool
  | leaf _ => true
  | _ => false

/-- Whether the draft has a dash on each line. -/
def isSequence : Draft → Bool
  | sequence _ => true
  | _ => false

mutual

/-- The value that is laid out; it may repeat keys. -/
def value : Draft → Value
  | leaf value => value
  | mapping entries => .mapping (entryValues entries)
  | sequence items => .sequence (itemValues items)

/-- The keys and values of entries. -/
def entryValues : List (Heading × Draft) → List (String × Value)
  | [] => []
  | (heading, child) :: entries => (heading.key, value child) :: entryValues entries

/-- The values of items. -/
def itemValues : List (Style × Draft) → List Value
  | [] => []
  | (_, child) :: items => value child :: itemValues items

end

mutual

/-- No collection with a line for each item is empty, and the leaves are spelled by their texts and
repeat no keys. -/
def WellFormed : Draft → Prop
  | leaf value => value.Spellable ∧ value.Distinct
  | mapping entries => entries ≠ [] ∧ WellFormedEntries entries
  | sequence items => items ≠ [] ∧ WellFormedItems items

/-- The drafts below entries are well-formed. -/
def WellFormedEntries : List (Heading × Draft) → Prop
  | [] => True
  | (_, child) :: entries => WellFormed child ∧ WellFormedEntries entries

/-- The drafts below items are well-formed. -/
def WellFormedItems : List (Style × Draft) → Prop
  | [] => True
  | (_, child) :: items => WellFormed child ∧ WellFormedItems items

end

/-- The indentation of a collection below a key: a sequence may stand at that of the key. -/
def indentBelow (unit indent : List Char) (style : Style) (child : Draft) : List Char :=
  if style.tight && child.isSequence then indent else indent ++ unit

/-- The indentation of a collection after a dash: it may stand on the line of the dash. -/
def indentAfter (unit indent : List Char) (style : Style) : List Char :=
  if style.tight then indent ++ [' ', ' '] else indent ++ unit

/-- What stands between a dash and a collection with the given lines. -/
def gapAfter (unit indent : List Char) (style : Style) (lines : List Line) : List Char :=
  if style.tight then [' '] else breakText (indentAfter unit indent style) lines

/-- The line of an entry: a key and a colon before a value or a collection with the given lines. -/
def entryLine (unit indent : List Char) (heading : Heading) (child : Draft)
    (lines : List Char → List Line) : Line :=
  let inner := child.indentBelow unit indent heading.style
  ⟨heading.style.afterReturn, heading.text ++ ':' ::
    if child.isLeaf then ' ' :: child.value.text else brokenText inner (lines inner)⟩

/-- The line of an item: a dash before a value or a collection with the given lines. -/
def itemLine (unit indent : List Char) (style : Style) (child : Draft)
    (lines : List Char → List Line) : Line :=
  let inner := indentAfter unit indent style
  ⟨style.afterReturn, '-' ::
    if child.isLeaf then ' ' :: child.value.text
    else gapAfter unit indent style (lines inner) ++ blockText inner (lines inner)⟩

mutual

/-- The lines of a collection of the given indentation, where deeper lines are indented by one unit
more. -/
def lines (unit indent : List Char) : Draft → List Line
  | leaf _ => []
  | mapping entries => entryLines unit indent entries
  | sequence items => itemLines unit indent items

/-- The lines of entries. -/
def entryLines (unit indent : List Char) : List (Heading × Draft) → List Line
  | [] => []
  | (heading, child) :: entries =>
    entryLine unit indent heading child (fun inner => lines unit inner child) ::
      entryLines unit indent entries

/-- The lines of items. -/
def itemLines (unit indent : List Char) : List (Style × Draft) → List Line
  | [] => []
  | (style, child) :: items =>
    itemLine unit indent style child (fun inner => lines unit inner child) ::
      itemLines unit indent items

end

/-- The text of a collection that is a whole document. -/
def text (unit : List Char) (d : Draft) : List Char :=
  blockText [] (d.lines unit [])

/-- The text from the start of an entry to the collection below its key. -/
def textBelow (unit indent : List Char) (heading : Heading) (child : Draft) : List Char :=
  let inner := child.indentBelow unit indent heading.style
  heading.text ++ ':' :: breakText inner (child.lines unit inner)

/-- The text from the start of an item to the collection after its dash. -/
def textAfter (unit indent : List Char) (style : Style) (child : Draft) : List Char :=
  '-' :: gapAfter unit indent style (child.lines unit (indentAfter unit indent style))

mutual

/-- What a collection of the given indentation is read as at a place. -/
def outcome (unit indent : List Char) : Draft → Position → Except DecodeFailure Value
  | leaf value, _ => .ok value
  | mapping entries, p =>
    (Reading.items [] (placed indent p (entryLines unit indent entries)
      (entryReadings unit indent entries))).bind (Item.collect false)
  | sequence items, p =>
    (Reading.items [] (placed indent p (itemLines unit indent items)
      (itemReadings unit indent items))).bind (Item.collect false)

/-- What entries are read as at the places of their keys. -/
def entryReadings (unit indent : List Char) :
    List (Heading × Draft) → List (Position → Reading)
  | [] => []
  | (heading, child) :: entries =>
    (fun p => ⟨some ⟨heading.key, p⟩, outcome unit (child.indentBelow unit indent heading.style)
      child (p.after (textBelow unit indent heading child))⟩) :: entryReadings unit indent entries

/-- What items are read as at the places of their dashes. -/
def itemReadings (unit indent : List Char) : List (Style × Draft) → List (Position → Reading)
  | [] => []
  | (style, child) :: items =>
    (fun p => ⟨none, outcome unit (indentAfter unit indent style) child
      (p.after (textAfter unit indent style child))⟩) :: itemReadings unit indent items

end

mutual

/-- The lines of a collection are read as a block. -/
theorem spellsBlock_lines {unit : List Char} (hunit : IsIndent unit) (hne : unit ≠ []) :
    ∀ (d : Draft) {depth : Nat} {indent : List Char}, IsIndent indent → d.isLeaf = false →
      d.WellFormed → d.value.nest ≤ depth →
        SpellsBlock depth indent d.isSequence (d.lines unit indent) (d.outcome unit indent)
  | leaf _, _, _, _, hleaf, _, _ => Bool.noConfusion hleaf
  | mapping _, 0, _, _, _, _, hnest => absurd hnest (Nat.not_succ_le_zero _)
  | mapping entries, depth + 1, indent, hindent, _, h, hnest => by
    have hlines : entryLines unit indent entries ≠ [] := by
      cases entries with
      | nil => exact absurd rfl h.1
      | cons entry entries => exact List.cons_ne_nil _ _
    exact spellsBlock_of_lines hindent hlines
      (spells_entryLines hunit hne entries hindent h.2 (Nat.le_of_succ_le_succ hnest))
  | sequence _, 0, _, _, _, _, hnest => absurd hnest (Nat.not_succ_le_zero _)
  | sequence items, depth + 1, indent, hindent, _, h, hnest => by
    have hlines : itemLines unit indent items ≠ [] := by
      cases items with
      | nil => exact absurd rfl h.1
      | cons item items => exact List.cons_ne_nil _ _
    exact spellsBlock_of_lines hindent hlines
      (spells_itemLines hunit hne items hindent h.2 (Nat.le_of_succ_le_succ hnest))

/-- The lines of entries are read as the lines of a block. -/
theorem spells_entryLines {unit : List Char} (hunit : IsIndent unit) (hne : unit ≠ []) :
    ∀ (entries : List (Heading × Draft)) {depth : Nat} {indent : List Char}, IsIndent indent →
      WellFormedEntries entries → Value.nestEntries (entryValues entries) ≤ depth →
        List.Forall₂ (SpellsLine depth indent false) (entryLines unit indent entries)
          (entryReadings unit indent entries)
  | [], _, _, _, _, _ => .nil
  | (heading, child) :: entries, depth, indent, hindent, h, hnest => by
    have hdepth := Nat.max_le.1 hnest
    refine .cons ?_ (spells_entryLines hunit hne entries hindent h.2 hdepth.2)
    cases hleaf : child.isLeaf with
    | true =>
      cases child with
      | leaf value =>
        have hvalue := value.spelled_text h.1.1 h.1.2 hdepth.1
        exact (hvalue.mono fun hread => hread.1).keyLine heading.spellsKey heading.style.afterReturn
      | mapping entries => contradiction
      | sequence items => contradiction
    | false =>
      have hchild {inner : List Char} (hinner : IsIndent inner) :=
        spellsBlock_lines hunit hne child hinner hleaf h.1 hdepth.1
      rw [entryLine, hleaf]
      unfold textBelow indentBelow
      by_cases hflush : (heading.style.tight && child.isSequence) = true
      · have hblock := hchild hindent
        rw [(Bool.and_eq_true_iff.1 hflush).2] at hblock
        simp only [hflush, if_true]
        exact hblock.flushLine hindent heading.spellsKey heading.style.afterReturn
      · simp only [hflush]
        exact (hchild (hindent.append hunit)).keyLine hindent hunit hne heading.spellsKey
          heading.style.afterReturn

/-- The lines of items are read as the lines of a block. -/
theorem spells_itemLines {unit : List Char} (hunit : IsIndent unit) (hne : unit ≠ []) :
    ∀ (items : List (Style × Draft)) {depth : Nat} {indent : List Char}, IsIndent indent →
      WellFormedItems items → Value.nestItems (itemValues items) ≤ depth →
        List.Forall₂ (SpellsLine depth indent true) (itemLines unit indent items)
          (itemReadings unit indent items)
  | [], _, _, _, _, _ => .nil
  | (style, child) :: items, depth, indent, hindent, h, hnest => by
    have hdepth := Nat.max_le.1 hnest
    refine .cons ?_ (spells_itemLines hunit hne items hindent h.2 hdepth.2)
    cases hleaf : child.isLeaf with
    | true =>
      cases child with
      | leaf value =>
        have hvalue := value.spelled_text h.1.1 h.1.2 hdepth.1
        exact (hvalue.mono fun hread => hread.1).dashLine style.afterReturn
      | mapping entries => contradiction
      | sequence items => contradiction
    | false =>
      have hchild {inner : List Char} (hinner : IsIndent inner) :=
        spellsBlock_lines hunit hne child hinner hleaf h.1 hdepth.1
      rw [itemLine, hleaf]
      unfold textAfter gapAfter indentAfter
      by_cases htight : style.tight = true
      · simp only [htight, if_true]
        exact (hchild (hindent.append isIndent_spaces)).compactLine style.afterReturn
      · simp only [htight]
        have hline := (hchild (hindent.append hunit)).dashLine hindent hunit hne style.afterReturn
        rw [brokenText_eq] at hline
        exact hline

end

end Draft

end NeonAudit
