import NeonAudit.Proofs.Document.Draft

/-!
# Keys that are repeated

The keys of a draft are checked one after another, each behind those of the collection below it. A
key is repeated if it is among the keys before it in its own mapping, however the two are written,
and the first repeated key is what decoding the draft fails with. So it is decoded exactly if none
of its mappings repeats a key.
-/

namespace NeonAudit

/-- The place of a key in the text of a draft. -/
structure KeyPlace where
  /-- The text before the key. -/
  before : List Char
  /-- The keys before it in its mapping. -/
  seen : List String
  /-- The key. -/
  heading : Heading

namespace KeyPlace

/-- The key occurs before in its mapping. -/
def Repeats (place : KeyPlace) : Prop :=
  place.heading.key ∈ place.seen

instance (place : KeyPlace) : Decidable place.Repeats :=
  inferInstanceAs (Decidable (place.heading.key ∈ place.seen))

/-- The place in a text that has more text at its front. -/
def behind (text : List Char) (place : KeyPlace) : KeyPlace :=
  { place with before := text ++ place.before }

/-- The key and its colon stand at the place in the text. -/
def StandsIn (place : KeyPlace) (text : List Char) : Prop :=
  place.before ++ (place.heading.text ++ [':']) <+: text

/-- The first key of a text stands at its front. -/
theorem standsIn_nil (seen : List String) (heading : Heading) (rest : List Char) :
    StandsIn ⟨[], seen, heading⟩ (heading.text ++ ':' :: rest) :=
  ⟨rest, by rw [List.nil_append, List.append_assoc, List.singleton_append]⟩

/-- A key stands in a text that has more text at its front and at its end. -/
theorem StandsIn.behind {place : KeyPlace} {text : List Char} (h : place.StandsIn text)
    (front rest : List Char) : (place.behind front).StandsIn (front ++ (text ++ rest)) := by
  rw [StandsIn, KeyPlace.behind, List.append_assoc]
  exact (List.prefix_append_right_inj front).2 (h.trans (List.prefix_append text rest))

/-- The failure of repeating the key, in a text that starts at the given position. -/
def failure (p : Position) (place : KeyPlace) : DecodeFailure :=
  .at (p.after place.before) (.duplicatedKey place.heading.key)

/-- A result, unless one of the keys is repeated. -/
def settle {α : Type} (p : Position) (result : α) : List KeyPlace → Except DecodeFailure α
  | [] => .ok result
  | place :: places =>
    if place.Repeats then .error (place.failure p) else settle p result places

section Settle

variable {α β : Type} (p : Position)

/-- What is made of a result fails with a repeated key of the first places, if there is one, and
otherwise with one of the others. -/
theorem settle_bind {f : α → Except DecodeFailure β} {result : α} {made : β}
    {rest : List KeyPlace} (h : f result = settle p made rest) (places : List KeyPlace) :
    (settle p result places).bind f = settle p made (places ++ rest) := by
  induction places with
  | nil => exact h
  | cons place places ih =>
    rw [List.cons_append, settle, settle]
    split
    · rfl
    · exact ih

/-- A result that is changed is a result of the same places. -/
theorem settle_map (f : α → β) (result : α) (places : List KeyPlace) :
    (settle p result places).map f = settle p (f result) places := by
  induction places with
  | nil => rfl
  | cons place places ih =>
    rw [settle, settle]
    split
    · rfl
    · exact ih

variable (result : α)

/-- Places with more text before them are those of a text that starts behind it. -/
theorem settle_map_behind (text : List Char) (places : List KeyPlace) :
    settle p result (places.map (behind text)) = settle (p.after text) result places := by
  induction places with
  | nil => rfl
  | cons place places ih =>
    have hfailure : (place.behind text).failure p = place.failure (p.after text) :=
      congrArg (DecodeFailure.at · _) (Position.after_append p text place.before)
    rw [List.map_cons, settle, settle, ih, hfailure]
    rfl

/-- There is the result and no key is repeated, or one of the repeated keys is what fails. -/
theorem settle_cases (places : List KeyPlace) :
    ((∀ place ∈ places, ¬place.Repeats) ∧ settle p result places = .ok result) ∨
      ∃ place ∈ places, place.Repeats ∧ settle p result places = .error (place.failure p) := by
  induction places with
  | nil => exact .inl ⟨by simp, rfl⟩
  | cons place places ih =>
    rw [settle]
    by_cases hplace : place.Repeats
    · rw [if_pos hplace]
      exact .inr ⟨place, List.mem_cons_self, hplace, rfl⟩
    · rw [if_neg hplace]
      rcases ih with ⟨hnone, hok⟩ | ⟨other, hmem, hother, herror⟩
      · exact .inl ⟨List.forall_mem_cons.2 ⟨hplace, hnone⟩, hok⟩
      · exact .inr ⟨other, List.mem_cons_of_mem place hmem, hother, herror⟩

/-- If a key is repeated it does not matter what is made of the result. -/
theorem settle_bind_of_repeats (f : α → Except DecodeFailure β) (made : β) {places : List KeyPlace}
    {place : KeyPlace} (hmem : place ∈ places) (h : place.Repeats) :
    (settle p result places).bind f = settle p made places := by
  induction places with
  | nil => contradiction
  | cons first places ih =>
    rw [settle, settle]
    split
    · rfl
    · rename_i hfirst
      rcases List.mem_cons.1 hmem with rfl | hmem
      · exact absurd h hfirst
      · exact ih hmem

end Settle

end KeyPlace

namespace Draft

open KeyPlace

/-- The text from the start of an entry to the start of the next one, if there is one. -/
def entryText (unit indent : List Char) (heading : Heading) (child : Draft)
    (entries : List (Heading × Draft)) : List Char :=
  (entryLine unit indent heading child fun inner => child.lines unit inner).text ++
    breakText indent (entryLines unit indent entries)

/-- The text from the start of an item to the start of the next one, if there is one. -/
def itemText (unit indent : List Char) (style : Style) (child : Draft)
    (items : List (Style × Draft)) : List Char :=
  (itemLine unit indent style child fun inner => child.lines unit inner).text ++
    breakText indent (itemLines unit indent items)

mutual

/-- The places of all keys in the lines of a collection, in the order in which they are checked. -/
def keyPlaces (unit indent : List Char) : Draft → List KeyPlace
  | leaf _ => []
  | mapping entries => entryPlaces unit indent [] entries
  | sequence items => itemPlaces unit indent items

/-- The places of all keys in the lines of entries, where `seen` are the keys before them. -/
def entryPlaces (unit indent : List Char) (seen : List String) :
    List (Heading × Draft) → List KeyPlace
  | [] => []
  | (heading, child) :: entries =>
    (keyPlaces unit (child.indentBelow unit indent heading.style) child).map
        (behind (textBelow unit indent heading child)) ++
      ⟨[], seen, heading⟩ :: (entryPlaces unit indent (heading.key :: seen) entries).map
        (behind (entryText unit indent heading child entries))

/-- The places of all keys in the lines of items. -/
def itemPlaces (unit indent : List Char) : List (Style × Draft) → List KeyPlace
  | [] => []
  | (style, child) :: items =>
    (keyPlaces unit (indentAfter unit indent style) child).map
        (behind (textAfter unit indent style child)) ++
      (itemPlaces unit indent items).map (behind (itemText unit indent style child items))

end

section Distinct

variable (unit : List Char)

mutual

/-- No key of a draft is repeated exactly if its value repeats none. -/
theorem forall_not_repeats_iff : ∀ {d : Draft}, d.WellFormed → ∀ indent,
    (∀ place ∈ d.keyPlaces unit indent, ¬place.Repeats) ↔ d.value.Distinct
  | leaf _, h, _ => ⟨fun _ => h.2, fun _ _ hmem => absurd hmem List.not_mem_nil⟩
  | mapping entries, h, indent => by
    rw [keyPlaces, forall_not_repeats_entries_iff h.2 indent [], value, Value.Distinct,
      ← Item.keys_map_ofEntry]
    exact ⟨fun hfresh => ⟨hfresh.1.nodup, hfresh.2⟩,
      fun hdistinct => ⟨Item.fresh_of_nodup hdistinct.1, hdistinct.2⟩⟩
  | sequence items, h, indent => forall_not_repeats_items_iff h.2 indent

/-- No key of entries is repeated exactly if their own keys are fresh and their values repeat
none. -/
theorem forall_not_repeats_entries_iff : ∀ {entries : List (Heading × Draft)},
    WellFormedEntries entries → ∀ indent seen,
      (∀ place ∈ entryPlaces unit indent seen entries, ¬place.Repeats) ↔
        Item.Fresh seen ((entryValues entries).map Item.ofEntry) ∧
          Value.DistinctEntries (entryValues entries)
  | [], _, _, seen => by
    simp only [entryPlaces, entryValues]
    exact ⟨fun _ => ⟨⟨List.nodup_nil, by simp [Item.keys]⟩, trivial⟩,
      fun _ _ hmem => absurd hmem List.not_mem_nil⟩
  | (heading, child) :: entries, h, indent, seen => by
    have hchild := forall_not_repeats_iff h.1 (child.indentBelow unit indent heading.style)
    have hrest := forall_not_repeats_entries_iff h.2 indent (heading.key :: seen)
    rw [entryPlaces, List.forall_mem_append, List.forall_mem_map, List.forall_mem_cons,
      List.forall_mem_map]
    constructor
    · rintro ⟨hplaces, hkey, hplaces'⟩
      obtain ⟨hfresh, hdistinct⟩ := hrest.1 hplaces'
      refine ⟨Item.fresh_cons_iff.2 ⟨?_, hfresh⟩, hchild.1 hplaces, hdistinct⟩
      rintro _ ⟨⟩
      exact hkey
    · rintro ⟨hfresh, hdistinct, hdistinct'⟩
      exact ⟨hchild.2 hdistinct, hfresh.head _ rfl, hrest.2 ⟨hfresh.tail, hdistinct'⟩⟩

/-- No key of items is repeated exactly if their values repeat none. -/
theorem forall_not_repeats_items_iff : ∀ {items : List (Style × Draft)}, WellFormedItems items →
    ∀ indent, (∀ place ∈ itemPlaces unit indent items, ¬place.Repeats) ↔
      Value.DistinctItems (itemValues items)
  | [], _, _ => ⟨fun _ => trivial, fun _ _ hmem => absurd hmem List.not_mem_nil⟩
  | (style, child) :: items, h, indent => by
    have hchild := forall_not_repeats_iff h.1 (indentAfter unit indent style)
    have hrest := forall_not_repeats_items_iff h.2 indent
    rw [itemPlaces, List.forall_mem_append, List.forall_mem_map, List.forall_mem_map]
    exact and_congr hchild hrest

end

end Distinct

section Outcome

variable {unit : List Char}

/-- Entries of which no key is repeated are collected into the mapping of them. -/
theorem collect_of_forall_not_repeats {entries : List (Heading × Draft)} {indent : List Char}
    (h : WellFormed (mapping entries))
    (hplaces : ∀ place ∈ entryPlaces unit indent [] entries, ¬place.Repeats) :
    Item.collect false ((entryValues entries).map Item.ofEntry) =
      .ok (value (mapping entries)) := by
  have hfresh := ((forall_not_repeats_entries_iff unit h.2 indent []).1 hplaces).1
  have hkeys := hfresh.nodup
  rw [Item.keys_map_ofEntry] at hkeys
  rw [value]
  refine Item.collect_map_ofEntry hkeys (.inl ?_)
  cases entries with
  | nil => exact absurd rfl h.1
  | cons entry entries => exact List.cons_ne_nil _ _

mutual

/-- A draft is read as its value, unless one of its keys is repeated. -/
theorem outcome_eq : ∀ {d : Draft}, d.WellFormed → ∀ indent p,
    d.outcome unit indent p = settle p d.value (d.keyPlaces unit indent)
  | leaf _, _, _, _ => rfl
  | mapping entries, h, indent, p => by
    rw [outcome, items_entryReadings h.2 indent [] p, keyPlaces]
    rcases settle_cases p (value (mapping entries)) (entryPlaces unit indent [] entries) with
      ⟨hnone, -⟩ | ⟨place, hmem, hrepeats, -⟩
    · have hcollect : Item.collect false ((entryValues entries).map Item.ofEntry) =
          settle p (value (mapping entries)) [] := collect_of_forall_not_repeats h hnone
      rw [settle_bind p hcollect, List.append_nil]
    · exact settle_bind_of_repeats p _ _ _ hmem hrepeats
  | sequence items, h, indent, p => by
    have hcollect : Item.collect false ((itemValues items).map Item.ofValue) =
        settle p (value (sequence items)) [] := Item.collect_map_ofValue (.inr rfl)
    rw [outcome, items_itemReadings h.2 indent p, keyPlaces, settle_bind p hcollect,
      List.append_nil]

/-- Entries are read as their keys and values, unless a key among them is repeated. -/
theorem items_entryReadings : ∀ {entries : List (Heading × Draft)}, WellFormedEntries entries →
    ∀ indent seen p,
      Reading.items seen (placed indent p (entryLines unit indent entries)
        (entryReadings unit indent entries)) =
        settle p ((entryValues entries).map Item.ofEntry) (entryPlaces unit indent seen entries)
  | [], _, _, _, _ => rfl
  | (heading, child) :: entries, h, indent, seen, p => by
    have hchild := outcome_eq h.1 (child.indentBelow unit indent heading.style)
      (p.after (textBelow unit indent heading child))
    have hrest := items_entryReadings h.2 indent (heading.key :: seen)
      (p.after (entryText unit indent heading child entries))
    have hitem : blockItem seen (some ⟨heading.key, p⟩) child.value =
        settle p (Item.ofEntry (heading.key, child.value)) [⟨[], seen, heading⟩] := rfl
    rw [entryLines, entryReadings, placed, Reading.items, Reading.item, hchild, entryPlaces,
      List.append_cons, ← settle_map_behind, settle_bind p hitem]
    refine settle_bind p ?_ _
    rw [settle_map_behind, entryValues, List.map_cons, ← settle_map, ← hrest]
    rfl

/-- Items are read as their values, unless a key inside them is repeated. -/
theorem items_itemReadings : ∀ {items : List (Style × Draft)}, WellFormedItems items →
    ∀ indent p,
      Reading.items [] (placed indent p (itemLines unit indent items)
        (itemReadings unit indent items)) =
        settle p ((itemValues items).map Item.ofValue) (itemPlaces unit indent items)
  | [], _, _, _ => rfl
  | (style, child) :: items, h, indent, p => by
    have hchild := outcome_eq h.1 (indentAfter unit indent style)
      (p.after (textAfter unit indent style child))
    have hrest := items_itemReadings h.2 indent (p.after (itemText unit indent style child items))
    have hitem : blockItem [] none child.value = settle p (Item.ofValue child.value) [] := rfl
    rw [itemLines, itemReadings, placed, Reading.items, Reading.item, hchild, itemPlaces,
      ← settle_map_behind, settle_bind p hitem, List.append_nil]
    refine settle_bind p ?_ _
    rw [settle_map_behind, itemValues, List.map_cons, ← settle_map, ← hrest]
    rfl

end

end Outcome

section StandsIn

variable {unit indent : List Char}

/-- The line of an entry leads to the collection below its key. -/
theorem text_entryLine {child : Draft} (hleaf : child.isLeaf = false) (heading : Heading) :
    (entryLine unit indent heading child fun inner => child.lines unit inner).text =
      textBelow unit indent heading child ++
        blockText (child.indentBelow unit indent heading.style)
          (child.lines unit (child.indentBelow unit indent heading.style)) := by
  rw [entryLine, hleaf, if_neg Bool.false_ne_true, brokenText_eq, textBelow, List.append_assoc]
  rfl

/-- The line of an item leads to the collection after its dash. -/
theorem text_itemLine {child : Draft} (hleaf : child.isLeaf = false) (style : Style) :
    (itemLine unit indent style child fun inner => child.lines unit inner).text =
      textAfter unit indent style child ++
        blockText (indentAfter unit indent style)
          (child.lines unit (indentAfter unit indent style)) := by
  rw [itemLine, hleaf, if_neg Bool.false_ne_true]
  rfl

/-- A draft in which there are keys is not on one line. -/
theorem isLeaf_of_mem_keyPlaces {d : Draft} {place : KeyPlace}
    (h : place ∈ d.keyPlaces unit indent) : d.isLeaf = false := by
  cases d with
  | leaf value => contradiction
  | _ => rfl

mutual

/-- The keys of a draft stand at their places in its text. -/
theorem standsIn_of_mem_keyPlaces : ∀ (d : Draft) {indent : List Char} {place : KeyPlace},
    place ∈ d.keyPlaces unit indent → place.StandsIn (blockText indent (d.lines unit indent))
  | leaf _, _, _, hmem => absurd hmem List.not_mem_nil
  | mapping entries, _, _, hmem => standsIn_of_mem_entryPlaces entries hmem
  | sequence items, _, _, hmem => standsIn_of_mem_itemPlaces items hmem

/-- The keys of entries stand at their places in the text of their lines. -/
theorem standsIn_of_mem_entryPlaces : ∀ (entries : List (Heading × Draft)) {indent : List Char}
    {seen : List String} {place : KeyPlace}, place ∈ entryPlaces unit indent seen entries →
      place.StandsIn (blockText indent (entryLines unit indent entries))
  | [], _, _, _, hmem => absurd hmem List.not_mem_nil
  | (heading, child) :: entries, indent, seen, place, hmem => by
    rw [entryPlaces, List.mem_append, List.mem_cons] at hmem
    rw [entryLines, blockText]
    rcases hmem with hmem | rfl | hmem
    · obtain ⟨inside, hinside, rfl⟩ := List.mem_map.1 hmem
      rw [text_entryLine (isLeaf_of_mem_keyPlaces hinside), List.append_assoc]
      exact (standsIn_of_mem_keyPlaces child hinside).behind _ _
    · rw [entryLine, List.append_assoc]
      exact standsIn_nil seen heading _
    · obtain ⟨later, hlater, rfl⟩ := List.mem_map.1 hmem
      have hstands := (standsIn_of_mem_entryPlaces entries hlater).behind
        (entryText unit indent heading child entries) []
      rwa [List.append_nil, entryText, List.append_assoc, ← brokenText_eq] at hstands

/-- The keys inside items stand at their places in the text of their lines. -/
theorem standsIn_of_mem_itemPlaces : ∀ (items : List (Style × Draft)) {indent : List Char}
    {place : KeyPlace}, place ∈ itemPlaces unit indent items →
      place.StandsIn (blockText indent (itemLines unit indent items))
  | [], _, _, hmem => absurd hmem List.not_mem_nil
  | (style, child) :: items, indent, place, hmem => by
    rw [itemPlaces, List.mem_append] at hmem
    rw [itemLines, blockText]
    rcases hmem with hmem | hmem
    · obtain ⟨inside, hinside, rfl⟩ := List.mem_map.1 hmem
      rw [text_itemLine (isLeaf_of_mem_keyPlaces hinside), List.append_assoc]
      exact (standsIn_of_mem_keyPlaces child hinside).behind _ _
    · obtain ⟨later, hlater, rfl⟩ := List.mem_map.1 hmem
      have hstands := (standsIn_of_mem_itemPlaces items hlater).behind
        (itemText unit indent style child items) []
      rwa [List.append_nil, itemText, List.append_assoc, ← brokenText_eq] at hstands

end

end StandsIn

/-- The text of a draft is decoded exactly if none of its mappings repeats a key, and then to its
value, whatever the unit of indentation, the layout of its items, the quotes around its keys and the
ends of its lines. Otherwise decoding fails at a key that occurs before in its mapping. -/
theorem decode_text_iff_distinct {d : Draft} {unit lineEnd : List Char} (hunit : IsIndent unit)
    (hne : unit ≠ []) (hleaf : d.isLeaf = false) (h : d.WellFormed) (hnest : d.value.nest ≤ 256)
    (hend : isLineEnd lineEnd = true) :
    (∀ value, decode (String.ofList (d.text unit ++ lineEnd)) = .ok value ↔
      d.value.Distinct ∧ value = d.value) ∧
    (¬d.value.Distinct → ∃ place ∈ d.keyPlaces unit [],
      place.Repeats ∧ place.StandsIn (d.text unit) ∧
        decode (String.ofList (d.text unit ++ lineEnd)) =
          .error (.malformed
            ⟨.duplicatedKey place.heading.key, Position.behind place.before⟩)) := by
  have hindent : IsIndent [] := fun _ hc => absurd hc List.not_mem_nil
  have hdecode : decode (String.ofList (d.text unit ++ lineEnd)) =
      settle .start d.value (d.keyPlaces unit []) := by
    rw [decode, String.toList_ofList, ← outcome_eq h]
    exact (spellsBlock_lines hunit hne d hindent hleaf h hnest).decodeChars hend
  have hdistinct := forall_not_repeats_iff unit h []
  rw [hdecode]
  rcases settle_cases .start d.value (d.keyPlaces unit []) with
    ⟨hnone, hok⟩ | ⟨place, hmem, hrepeats, herror⟩
  · have hvalue := hdistinct.1 hnone
    rw [hok]
    refine ⟨fun value => ⟨fun heq => ⟨hvalue, (Except.ok.inj heq).symm⟩, ?_⟩,
      fun hnot => absurd hvalue hnot⟩
    rintro ⟨-, rfl⟩
    rfl
  · rw [herror]
    refine ⟨fun value => ⟨fun heq => ?_, fun hvalue => ?_⟩, fun _ => ⟨place, hmem, hrepeats,
      standsIn_of_mem_keyPlaces d hmem, ?_⟩⟩
    · contradiction
    · exact absurd hrepeats (hdistinct.2 hvalue.1 place hmem)
    · rw [KeyPlace.failure, Position.start_after]
      rfl

/-- Mappings with the same keys inside and after each other, in a mapping that repeats a key. -/
def quotedBare : Draft :=
  .mapping [
    (⟨"a", false, ⟨false, true⟩⟩, .sequence [
      (⟨true, true⟩, .mapping [
        (⟨"b", false, ⟨false, false⟩⟩, .leaf (.scalar (.int 1))),
        (⟨"c", false, ⟨false, false⟩⟩, .leaf (.scalar (.int 2)))]),
      (⟨false, true⟩, .mapping [
        (⟨"b", false, ⟨false, false⟩⟩, .mapping [
          (⟨"b", false, ⟨false, false⟩⟩, .leaf (.scalar (.int 3)))])])]),
    (⟨"c", true, ⟨false, false⟩⟩, .leaf (.scalar (.int 4))),
    (⟨"c", false, ⟨false, false⟩⟩, .leaf .null)]

/-- Two mappings may have the same key, but no mapping may have it with quotes and without them. -/
theorem decode_text_quotedBare :
    decode "a:\r\n- b: 1\n  c: 2\n- b:\n  \tb: 3\n\"c\": 4\nc: null\n" =
      .error (.malformed ⟨.duplicatedKey "c", ⟨7, 1⟩⟩) := by
  have htab : IsIndent ['\t'] := by simp [IsIndent, Piece.isIndentation]
  have hrepeats : ¬quotedBare.value.Distinct := fun h => absurd h.1 (by decide +kernel)
  have hwell : quotedBare.WellFormed :=
    ⟨by simp, ⟨by simp, ⟨by simp, ⟨trivial, trivial⟩, ⟨trivial, trivial⟩, trivial⟩,
      ⟨by simp, ⟨by simp, ⟨trivial, trivial⟩, trivial⟩, trivial⟩, trivial⟩,
      ⟨trivial, trivial⟩, ⟨trivial, trivial⟩, trivial⟩
  have hplaces : ∀ place ∈ quotedBare.keyPlaces ['\t'] [], place.Repeats →
      place.heading.key = "c" ∧ Position.behind place.before = ⟨7, 1⟩ := by decide +kernel
  obtain ⟨place, hmem, hplace, -, hdecode⟩ :=
    (@decode_text_iff_distinct quotedBare ['\t'] ['\n'] htab (List.cons_ne_nil _ _) rfl hwell
      (by decide +kernel) rfl).2 hrepeats
  obtain ⟨hkey, hposition⟩ := hplaces place hmem hplace
  rw [hkey, hposition] at hdecode
  exact (congrArg decode (by decide +kernel)).trans hdecode

end Draft

end NeonAudit
