import Mathlib.Data.Finset.Card
import Mathlib.Data.List.Induction
import Mathlib.Data.List.Perm.Subperm
import NeonAudit.Value.Indexed

/-!
# Entries as an ordered finite map

Pairs that are inserted one after another leave one entry for each of their keys, in the order in
which the keys first occur, with the value of the last pair of the key. This is shown for the entries
alone, by induction on the pairs with the last one split off. Entries with an index hold the same: an
insertion keeps the index in step with the entries, and where they are in step it does to the entries
what an insertion without an index does.
-/

namespace NeonAudit

namespace Entries

variable {α : Type}

/-- The last of some pairs is inserted after the others. -/
theorem ofList_concat (pairs : List (String × α)) (pair : String × α) :
    ofList (pairs ++ [pair]) = insert pair.1 pair.2 (ofList pairs) := by
  rw [ofList, List.foldl_append]
  rfl

/-- The keys of inserted pairs are those of the pairs, each where it first occurs. -/
theorem keys_ofList (pairs : List (String × α)) :
    keys (ofList pairs) = (keys pairs).eraseDups := by
  induction pairs using List.reverseRecOn with
  | nil => rfl
  | append_singleton pairs pair ih =>
    have hkeys : keys (pairs ++ [pair]) = keys pairs ++ [pair.1] := by simp [keys]
    rw [ofList_concat, keys_insert, ih, hkeys, List.eraseDups_append]
    by_cases hmem : pair.1 ∈ keys pairs
    · rw [if_pos (List.mem_eraseDups.2 hmem)]
      simp [List.removeAll, hmem]
    · rw [if_neg (mt List.mem_eraseDups.1 hmem)]
      simp [List.removeAll, hmem, List.eraseDups_cons]

/-- A key of inserted pairs is bound to the value of its last pair. -/
theorem get?_ofList (pairs : List (String × α)) (key : String) :
    get? (ofList pairs) key = pairs.reverse.lookup key := by
  induction pairs using List.reverseRecOn with
  | nil => rfl
  | append_singleton pairs pair ih =>
    rw [ofList_concat, get?_insert, ih, List.reverse_append, List.reverse_singleton,
      List.singleton_append, List.lookup_cons]
    by_cases hkey : key = pair.1
    · rw [if_pos hkey, beq_iff_eq.2 hkey]
    · rw [if_neg hkey, beq_eq_false_iff_ne.2 hkey]

/-- Pairs with new and different keys are inserted at the end. -/
theorem foldl_insert_of_nodup {pairs entries : List (String × α)}
    (h : (keys entries ++ keys pairs).Nodup) :
    pairs.foldl (fun entries pair => insert pair.1 pair.2 entries) entries = entries ++ pairs := by
  induction pairs generalizing entries with
  | nil => rw [List.foldl_nil, List.append_nil]
  | cons pair pairs ih =>
    have hnew : pair.1 ∉ keys entries := fun hmem =>
      (List.nodup_append.1 h).2.2 _ hmem _ List.mem_cons_self rfl
    have hrest : (keys (entries ++ [pair]) ++ keys pairs).Nodup := by simpa [keys] using h
    rw [List.foldl_cons, insert_of_notMem hnew, ih hrest, List.append_assoc,
      List.singleton_append]

/-- Pairs with different keys are the entries that arise from inserting them. -/
theorem ofList_of_nodup {pairs : List (String × α)} (h : (keys pairs).Nodup) :
    ofList pairs = pairs := by
  rw [ofList, foldl_insert_of_nodup (by simpa [keys] using h), List.nil_append]

/-- Inserting pairs one after another keeps all of them exactly if their keys differ. -/
theorem length_ofList_iff (pairs : List (String × α)) :
    (ofList pairs).length = pairs.length ↔ (keys pairs).Nodup := by
  constructor
  · intro hlength
    have hsub : keys (ofList pairs) ⊆ keys pairs := by
      intro key hkey
      rw [keys_ofList] at hkey
      exact List.mem_eraseDups.1 hkey
    have hperm : (keys (ofList pairs)).Perm (keys pairs) :=
      ((nodup_keys_ofList pairs).subperm hsub).perm_of_length_le (by simp [keys, hlength])
    exact hperm.nodup_iff.1 (nodup_keys_ofList pairs)
  · intro hkeys
    rw [ofList_of_nodup hkeys]

/-- Inserted pairs leave as many entries as they have different keys. -/
theorem length_ofList (pairs : List (String × α)) :
    (ofList pairs).length = (keys pairs).toFinset.card := by
  have hkeys : (keys (ofList pairs)).toFinset = (keys pairs).toFinset := by
    ext key
    rw [List.mem_toFinset, List.mem_toFinset, keys_ofList, List.mem_eraseDups]
  rw [← hkeys, List.toFinset_card_of_nodup (nodup_keys_ofList pairs), keys, List.length_map]

/-- Where the entry of a key is known, an insertion under the key only changes its value. -/
theorem insert_eq_modify {entries : List (String × α)} (h : (keys entries).Nodup) {position : Nat}
    {key : String} (hkey : (keys entries)[position]? = some key) (value : α) :
    insert key value entries = entries.modify position fun entry => (entry.1, value) := by
  induction entries generalizing position with
  | nil => contradiction
  | cons entry rest ih =>
    obtain ⟨hnew, hrest⟩ := List.nodup_cons.1 h
    cases position with
    | zero =>
      obtain rfl : entry.1 = key := Option.some.inj hkey
      rw [insert, if_pos rfl]
      rfl
    | succ position =>
      have hne : entry.1 ≠ key := by
        rintro rfl
        exact hnew (List.mem_of_getElem? hkey)
      rw [insert, if_neg hne, ih hrest hkey]
      rfl

/-- A list with one more member has this member at its end, and the others where they were. -/
theorem getElem?_concat_eq_some_iff {β : Type} {list : List β} {last member : β} {i : Nat} :
    (list ++ [last])[i]? = some member ↔
      list[i]? = some member ∨ i = list.length ∧ last = member := by
  rw [List.getElem?_append]
  split
  · rename_i hlt
    have hne : i ≠ list.length := Nat.ne_of_lt hlt
    simp [hne]
  · rename_i hle
    have hnone : list[i]? = none := List.getElem?_eq_none (Nat.not_lt.1 hle)
    have hzero : i - list.length = 0 ↔ i = list.length := by omega
    rw [hnone, List.getElem?_singleton]
    simp [hzero]

end Entries

namespace IndexedEntries

variable {α : Type} {map : IndexedEntries α}

/-- The index leads from each key to its position among the keys, and knows no other keys. -/
def IsInStep (map : IndexedEntries α) : Prop :=
  ∀ key position, Entries.get? map.index key = some position ↔ map.keys[position]? = some key

/-- Where the index is in step, no key is repeated. -/
theorem IsInStep.nodup_keys (h : map.IsInStep) : map.keys.Nodup := by
  refine List.nodup_iff_getElem?_ne_getElem?.2 fun i j hij hj hsame => ?_
  have hi : Entries.get? map.index map.keys[j] = some i :=
    (h _ i).2 (hsame.trans (List.getElem?_eq_getElem hj))
  have hj := (h _ j).2 (List.getElem?_eq_getElem hj)
  have heq := Option.some.inj (hi.symm.trans hj)
  omega

/-- Where the index is in step, it has the keys of the entries. -/
theorem IsInStep.contains_iff (h : map.IsInStep) {key : String} :
    map.contains key = true ↔ key ∈ map.keys := by
  rw [contains, Entries.contains, Option.isSome_iff_exists, List.mem_iff_getElem?]
  exact exists_congr fun position => h key position

/-- Where the index is in step, what it does not have is no key of the entries. -/
theorem IsInStep.notMem_keys (h : map.IsInStep) {key : String}
    (hindex : Entries.get? map.index key = none) : key ∉ map.keys := by
  rw [← h.contains_iff, contains, Entries.contains, hindex]
  exact Bool.false_ne_true

/-- Where the index is in step, a key is looked up as if the entries were searched for it. -/
theorem IsInStep.get?_eq (h : map.IsInStep) (key : String) :
    map.get? key = Entries.get? map.entries key := by
  cases hindex : Entries.get? map.index key with
  | some position =>
    have hposition := (h key position).1 hindex
    rw [keys, Entries.keys, List.getElem?_map] at hposition
    obtain ⟨entry, hentry, rfl⟩ := Option.map_eq_some_iff.1 hposition
    rw [get?, hindex, Option.bind_some, hentry]
    exact ((Entries.get?_eq_some_iff h.nodup_keys).2 (List.mem_of_getElem? hentry)).symm
  | none =>
    rw [get?, hindex, Option.bind_none]
    exact (Option.not_isSome_iff_eq_none.1 (mt Entries.contains_iff.1 (h.notMem_keys hindex))).symm

/-- Where the index is in step, an insertion changes the entries as one without an index does. -/
theorem IsInStep.entries_insert (h : map.IsInStep) (key : String) (value : α) :
    (map.insert key value).2.entries = Entries.insert key value map.entries := by
  rw [IndexedEntries.insert]
  split
  · rename_i position hindex
    exact (Entries.insert_eq_modify h.nodup_keys ((h key position).1 hindex) value).symm
  · rename_i hindex
    exact (Entries.insert_of_notMem (h.notMem_keys hindex) value).symm

/-- An insertion keeps the index in step. -/
theorem IsInStep.insert (h : map.IsInStep) (key : String) (value : α) :
    (map.insert key value).2.IsInStep := by
  have hkeys : (map.insert key value).2.keys =
      if key ∈ map.keys then map.keys else map.keys ++ [key] := by
    rw [keys, h.entries_insert, Entries.keys_insert]
    rfl
  intro other position
  rw [hkeys]
  cases hindex : Entries.get? map.index key with
  | some known =>
    -- The key keeps its position, so neither the keys nor the index change.
    have hmem : key ∈ map.keys := List.mem_of_getElem? ((h key known).1 hindex)
    have hsame : (map.insert key value).2.index = map.index := by
      rw [IndexedEntries.insert, hindex]
    rw [if_pos hmem, hsame]
    exact h other position
  | none =>
    have hnew := h.notMem_keys hindex
    have hadded : (map.insert key value).2.index =
        Entries.insert key map.keys.length map.index := by
      rw [IndexedEntries.insert, hindex, keys, Entries.keys, List.length_map]
    rw [if_neg hnew, hadded, Entries.get?_insert, Entries.getElem?_concat_eq_some_iff]
    by_cases hother : other = key
    · have hnot : map.keys[position]? ≠ some key := fun hsome => hnew (List.mem_of_getElem? hsome)
      rw [if_pos hother, hother]
      simp [hnot, eq_comm]
    · rw [if_neg hother, h other position]
      simp [Ne.symm hother]

/-- Pairs that are inserted where the index is in step leave it in step, and the entries as they are
without an index. -/
theorem IsInStep.foldl_insert (h : map.IsInStep) (pairs : List (String × α)) :
    let after := pairs.foldl (fun map pair => (map.insert pair.1 pair.2).2) map
    after.IsInStep ∧ after.entries =
      pairs.foldl (fun entries pair => Entries.insert pair.1 pair.2 entries) map.entries := by
  induction pairs generalizing map with
  | nil => exact ⟨h, rfl⟩
  | cons pair pairs ih =>
    rw [List.foldl_cons, List.foldl_cons, ← h.entries_insert]
    exact ih (h.insert pair.1 pair.2)

/-- The index of no entries is in step. -/
theorem isInStep_empty : (empty : IndexedEntries α).IsInStep := by
  intro key position
  simp [empty, keys, Entries.keys, Entries.get?]

/-- The last of some pairs is inserted after the others. -/
theorem ofList_concat (pairs : List (String × α)) (pair : String × α) :
    ofList (pairs ++ [pair]) = ((ofList pairs).insert pair.1 pair.2).2 := by
  rw [ofList, List.foldl_append]
  rfl

/-- Pairs that are inserted one after another leave the index in step. -/
theorem isInStep_ofList (pairs : List (String × α)) : (ofList pairs).IsInStep :=
  (isInStep_empty.foldl_insert pairs).1

/-- The entries of inserted pairs are those without an index. -/
theorem entries_ofList (pairs : List (String × α)) :
    (ofList pairs).entries = Entries.ofList pairs :=
  (isInStep_empty.foldl_insert pairs).2

/-- An insertion gives back what was found under the key before. -/
theorem fst_insert (map : IndexedEntries α) (key : String) (value : α) :
    (map.insert key value).1 = map.get? key := by
  rw [IndexedEntries.insert, get?]
  cases Entries.get? map.index key <;> rfl

/-- Whatever pairs are inserted, the index leads from each key to the entry of the key and knows no
other key; the keys are those of the pairs, each once and where it first occurs, and so many are the
entries; a key is bound to the value of its last pair. A further insertion gives back what was found
under its key. Searching the entries finds what the index finds. -/
theorem ofList_refines (pairs : List (String × α)) :
    (∀ key position, Entries.get? (ofList pairs).index key = some position ↔
      (ofList pairs).entries[position]?.map Prod.fst = some key) ∧
    (ofList pairs).keys.Nodup ∧ (ofList pairs).keys = (Entries.keys pairs).eraseDups ∧
    (ofList pairs).size = (Entries.keys pairs).toFinset.card ∧
    (∀ key, (ofList pairs).get? key = pairs.reverse.lookup key) ∧
    (∀ key, (ofList pairs).contains key = ((ofList pairs).get? key).isSome) ∧
    (∀ key value, (ofList pairs).insert key value =
      ((ofList pairs).get? key, ofList (pairs ++ [(key, value)]))) ∧
    (ofList pairs).entries = Entries.ofList pairs ∧
    ∀ key, Entries.get? (ofList pairs).entries key = (ofList pairs).get? key := by
  have hstep : (ofList pairs).IsInStep := isInStep_ofList pairs
  have hentries : (ofList pairs).entries = Entries.ofList pairs := entries_ofList pairs
  have hkeys : (ofList pairs).keys = (Entries.keys pairs).eraseDups := by
    rw [keys, hentries, Entries.keys_ofList]
  refine ⟨?_, hstep.nodup_keys, hkeys, ?_, ?_, ?_, ?_, hentries, fun key => (hstep.get?_eq key).symm⟩
  · intro key position
    rw [← List.getElem?_map]
    exact hstep key position
  · rw [size, hentries, Entries.length_ofList]
  · intro key
    rw [hstep.get?_eq, hentries, Entries.get?_ofList]
  · intro key
    rw [hstep.get?_eq, Bool.eq_iff_iff, hstep.contains_iff, keys, ← Entries.contains_iff]
    rfl
  · intro key value
    exact Prod.ext (fst_insert (ofList pairs) key value) (ofList_concat pairs (key, value)).symm

end IndexedEntries

end NeonAudit
