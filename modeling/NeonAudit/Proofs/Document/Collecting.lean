import NeonAudit.Document.Collection

/-!
# Collections of items of one kind

Items without keys are collected into a sequence, and items with different keys into a mapping with
the same entries in the same order.
-/

namespace NeonAudit

/-- What is inserted is the only new entry. -/
theorem Entries.eq_or_mem_of_mem_insert {α : Type} {key : String} {value : α}
    {entries : List (String × α)} {entry : String × α} (h : entry ∈ insert key value entries) :
    entry = (key, value) ∨ entry ∈ entries := by
  induction entries with
  | nil => exact .inl (List.mem_singleton.1 h)
  | cons first rest ih =>
    rw [insert] at h
    split at h
    · rcases List.mem_cons.1 h with h | h
      · exact .inl h
      · exact .inr (List.mem_cons_of_mem first h)
    · rcases List.mem_cons.1 h with h | h
      · exact .inr (h ▸ List.mem_cons_self)
      · exact (ih h).imp_right (List.mem_cons_of_mem first)

/-- There is an entry after an insertion. -/
theorem Entries.insert_ne_nil {α : Type} (key : String) (value : α)
    (entries : List (String × α)) : insert key value entries ≠ [] := by
  cases entries with
  | nil => exact List.cons_ne_nil _ _
  | cons entry rest =>
    rw [insert]
    split <;> exact List.cons_ne_nil _ _

namespace Item

/-- The key of an item precedes those of the items after it. -/
theorem keys_cons (item : Item) (items : List Item) :
    keys (item :: items) = item.key.toList ++ keys items := by
  rw [keys, List.filterMap_cons]
  cases item.key <;> rfl

/-- No two of the items have the same key, and none has a key that has been seen. -/
structure Fresh (seen : List String) (items : List Item) : Prop where
  /-- The keys of the items differ. -/
  nodup : (keys items).Nodup
  /-- No key of the items has been seen. -/
  unseen : ∀ key ∈ keys items, key ∉ seen

/-- Items with different keys are fresh where nothing has been seen. -/
theorem fresh_of_nodup {items : List Item} (h : (keys items).Nodup) : Fresh [] items :=
  ⟨h, fun _ _ => List.not_mem_nil⟩

/-- The key of the first of fresh items has not been seen. -/
theorem Fresh.head {seen : List String} {item : Item} {items : List Item}
    (h : Fresh seen (item :: items)) : ∀ key ∈ item.key, key ∉ seen := by
  intro key hkey
  refine h.unseen key ?_
  rw [keys_cons]
  exact List.mem_append_left _ (Option.mem_toList.2 hkey)

/-- The items after the first of fresh items are fresh when its key has been seen. -/
theorem Fresh.tail {seen : List String} {item : Item} {items : List Item}
    (h : Fresh seen (item :: items)) : Fresh (item.key.toList ++ seen) items := by
  obtain ⟨hnodup, hunseen⟩ := h
  rw [keys_cons] at hnodup hunseen
  obtain ⟨-, hrest, hdisjoint⟩ := List.nodup_append.1 hnodup
  refine ⟨hrest, fun key hkey hmem => ?_⟩
  rcases List.mem_append.1 hmem with hmem | hmem
  · exact hdisjoint key hmem key hkey rfl
  · exact hunseen key (List.mem_append_right _ hkey) hmem

/-- Items are fresh if the first of them is, and the others are when its key has been seen. -/
theorem fresh_cons_iff {seen : List String} {item : Item} {items : List Item} :
    Fresh seen (item :: items) ↔
      (∀ key ∈ item.key, key ∉ seen) ∧ Fresh (item.key.toList ++ seen) items := by
  refine ⟨fun h => ⟨h.head, h.tail⟩, fun ⟨hhead, htail⟩ => ⟨?_, ?_⟩⟩
  · rw [keys_cons]
    refine List.nodup_append.2 ⟨?_, htail.nodup, ?_⟩
    · cases item.key with
      | none => exact List.nodup_nil
      | some key => exact List.pairwise_singleton _ key
    · rintro key hkey _ hmem rfl
      exact htail.unseen key hmem (List.mem_append_left _ hkey)
  · rw [keys_cons]
    refine List.forall_mem_append.2 ⟨fun key hkey => hhead key (Option.mem_toList.1 hkey), ?_⟩
    intro key hkey hmem
    exact htail.unseen key hkey (List.mem_append_right _ hmem)

/-- A value without a key. -/
def ofValue (value : Value) : Item :=
  ⟨none, value⟩

/-- A value with a key. -/
def ofEntry (entry : String × Value) : Item :=
  ⟨some entry.1, entry.2⟩

/-- Items made of values have no keys. -/
theorem keys_map_ofValue (values : List Value) : keys (values.map ofValue) = [] := by
  rw [keys, List.filterMap_map]
  exact List.filterMap_eq_nil_iff.2 fun _ _ => rfl

/-- The keys of items made of entries are those of the entries. -/
theorem keys_map_ofEntry (entries : List (String × Value)) :
    keys (entries.map ofEntry) = Entries.keys entries := by
  rw [keys, List.filterMap_map, Entries.keys, ← List.filterMap_eq_map]
  rfl

/-- An item is inserted under a key, which is its own if it has one, before those after it. -/
theorem exists_of_insertAll?_cons {index : Int64} {entries inserted : List (String × Value)}
    {item : Item} {items : List Item}
    (h : insertAll? index entries (item :: items) = some inserted) :
    ∃ next key, (∀ own ∈ item.key, key = own) ∧
      insertAll? next (Entries.insert key item.value entries) items = some inserted := by
  obtain ⟨key?, value⟩ := item
  cases key? with
  | some own => exact ⟨nextIndex index own, own, fun _ hkey => Option.some.inj hkey, h⟩
  | none =>
    obtain ⟨free, -, hfree⟩ := Option.bind_eq_some_iff.1 h
    obtain ⟨next, -, hnext⟩ := Option.bind_eq_some_iff.1 hfree
    exact ⟨next, indexKey free, fun _ hkey => absurd hkey (Option.not_mem_none _), hnext⟩

/-- Entries with new keys are inserted at the end. -/
theorem insertAll?_map_ofEntry {entries more : List (String × Value)}
    (h : (Entries.keys entries ++ Entries.keys more).Nodup) (index : Int64) :
    insertAll? index entries (more.map ofEntry) = some (entries ++ more) := by
  induction more generalizing entries index with
  | nil => rw [List.map_nil, insertAll?, List.append_nil]
  | cons entry more ih =>
    have hnew : entry.1 ∉ Entries.keys entries := fun hmem =>
      (List.nodup_append.1 h).2.2 _ hmem _ List.mem_cons_self rfl
    rw [List.map_cons, ofEntry, insertAll?, Entries.insert_of_notMem hnew, ih]
    · rw [List.append_assoc, List.singleton_append]
    · simpa [Entries.keys] using h

/-- Inserting items repeats no key. -/
theorem nodup_keys_of_insertAll? {entries inserted : List (String × Value)} {items : List Item}
    {index : Int64} (hinsert : insertAll? index entries items = some inserted)
    (h : (Entries.keys entries).Nodup) : (Entries.keys inserted).Nodup := by
  induction items generalizing entries index with
  | nil => exact Option.some.inj hinsert ▸ h
  | cons item items ih =>
    obtain ⟨next, key, -, hrest⟩ := exists_of_insertAll?_cons hinsert
    exact ih hrest (Entries.nodup_keys_insert h)

/-- Every value is from the entries or from the items that are inserted. -/
theorem exists_of_mem_insertAll? {entries inserted : List (String × Value)} {items : List Item}
    {index : Int64} (hinsert : insertAll? index entries items = some inserted)
    {entry : String × Value} (h : entry ∈ inserted) :
    entry ∈ entries ∨ ∃ item ∈ items, item.value = entry.2 := by
  induction items generalizing entries index with
  | nil => exact .inl (Option.some.inj hinsert ▸ h)
  | cons item items ih =>
    obtain ⟨next, key, -, hrest⟩ := exists_of_insertAll?_cons hinsert
    rcases ih hrest with hmem | ⟨other, hother, hvalue⟩
    · rcases Entries.eq_or_mem_of_mem_insert hmem with rfl | hentry
      · exact .inr ⟨item, List.mem_cons_self, rfl⟩
      · exact .inl hentry
    · exact .inr ⟨other, List.mem_cons_of_mem _ hother, hvalue⟩

/-- Inserting items leaves no entries only where there are none to begin with. -/
theorem ne_nil_of_insertAll? {entries inserted : List (String × Value)} {items : List Item}
    {index : Int64} (hinsert : insertAll? index entries items = some inserted)
    (h : entries ≠ [] ∨ items ≠ []) : inserted ≠ [] := by
  induction items generalizing entries index with
  | nil => exact Option.some.inj hinsert ▸ h.resolve_right fun hnil => hnil rfl
  | cons item items ih =>
    obtain ⟨next, key, -, hrest⟩ := exists_of_insertAll?_cons hinsert
    exact ih hrest (.inl (Entries.insert_ne_nil _ _ _))

/-- A collection is the sequence of the values of its items, or the mapping of the entries that
arise from inserting them. -/
theorem collect_cases {preferMapping : Bool} {items : List Item} {value : Value}
    (h : collect preferMapping items = .ok value) :
    value = .sequence (items.map Item.value) ∨
      ((items.isEmpty = true → preferMapping = true) ∧
        ∃ entries, insertAll? 0 [] items = some entries ∧ value = .mapping entries) := by
  unfold collect at h
  split at h
  · exact .inl (Except.ok.inj h).symm
  · rename_i hcond
    split at h
    · contradiction
    · rename_i entries hinsert
      refine .inr ⟨fun hempty => ?_, entries, hinsert, (Except.ok.inj h).symm⟩
      obtain rfl := List.isEmpty_iff.1 hempty
      simpa [keys] using hcond

/-- Values without keys are collected into the sequence of them; without values there have to be
brackets that make it one. -/
theorem collect_map_ofValue {values : List Value} {preferMapping : Bool}
    (h : values ≠ [] ∨ preferMapping = false) :
    collect preferMapping (values.map ofValue) = .ok (.sequence values) := by
  have hprefer : ((values.map ofValue).isEmpty && preferMapping) = false := by
    rcases h with h | h
    · rw [List.isEmpty_map, List.isEmpty_eq_false_iff.2 h, Bool.false_and]
    · rw [h, Bool.and_false]
  rw [collect, keys_map_ofValue, hprefer, if_pos (by rfl), List.map_map]
  exact congrArg (Except.ok ∘ Value.sequence) (List.map_id values)

/-- Entries with different keys are collected into the mapping of them; without entries there have
to be brackets that make it one. -/
theorem collect_map_ofEntry {entries : List (String × Value)} {preferMapping : Bool}
    (hkeys : (Entries.keys entries).Nodup) (h : entries ≠ [] ∨ preferMapping = true) :
    collect preferMapping (entries.map ofEntry) = .ok (.mapping entries) := by
  have hcond : ((keys (entries.map ofEntry)).isEmpty &&
      !((entries.map ofEntry).isEmpty && preferMapping)) = false := by
    rw [keys_map_ofEntry, Entries.keys, List.isEmpty_map, List.isEmpty_map]
    rcases h with h | h
    · rw [List.isEmpty_eq_false_iff.2 h, Bool.false_and]
    · rw [h, Bool.and_true, Bool.and_not_self]
  rw [collect, hcond, if_neg Bool.false_ne_true, @insertAll?_map_ofEntry [] entries hkeys 0]
  rfl

end Item

end NeonAudit
