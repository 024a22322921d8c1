import NeonAudit.Proofs.Document.Overrun

/-!
# Indices of items without keys

An item without a key is stored under an index past all indices before it, so no item before it is
in its place. An item after it can be: a key that is written as that index replaces its value.
`KeepsIndices` excludes this, and it holds exactly where a mixed collection keeps every item, if its
indices do not run out.
-/

namespace NeonAudit

namespace Item

/-- No item without a key is followed by one that has its index as a key, where `index` is the next
to use. -/
def KeepsIndices (index : Int64) : List Item → Prop
  | [] => True
  | item :: items =>
    (item.key = none → indexKey index ∉ keys items) ∧ KeepsIndices (indexAfter index item) items

/-- Indices do not run out where there are not too many items and no keys that are too large. -/
theorem not_runsOut {items : List Item} (hlength : items.length < 2 ^ 62)
    (hinteger : ∀ key ∈ keys items, ∀ n ∈ Literal.integer? key.toList, n.toInt < 2 ^ 62) :
    ¬RunsOut 0 items := by
  rw [runsOut_iff]
  rintro (hcount | ⟨key, value, after, n, hsuffix, hread, hcount⟩)
  · have hle : keyless items ≤ items.length := List.countP_le_length
    rw [Int64.toInt_zero] at hcount
    omega
  · have hmem : key ∈ keys items :=
      List.mem_filterMap.2 ⟨⟨some key, value⟩, hsuffix.subset List.mem_cons_self, rfl⟩
    have hn := hinteger key hmem n hread
    have hle : keyless after ≤ after.length := List.countP_le_length
    have hafter := hsuffix.length_le
    rw [List.length_cons] at hafter
    omega

/-- Items are stored under their own keys and under indices from the first one on, below the largest
one if the indices do not run out. -/
theorem mem_keys_stored {index : Int64} {items : List Item} (h : ¬RunsOut index items)
    {key : String} (hkey : key ∈ Entries.keys (stored index items)) :
    key ∈ keys items ∨ ∃ free : Int64, index.toInt ≤ free.toInt ∧ free ≠ Int64.maxValue ∧
      key = indexKey free := by
  induction items generalizing index with
  | nil => contradiction
  | cons item items ih =>
    obtain ⟨hitem, htail⟩ := not_or.1 h
    have hlast (hnone : item.key = none) : index ≠ Int64.maxValue :=
      fun hindex => hitem ⟨hnone, hindex⟩
    rw [keys_cons]
    rcases List.mem_cons.1 hkey with hhead | hrest
    · cases hown : item.key with
      | some own => exact .inl (by simp [hhead, hown])
      | none => exact .inr ⟨index, Int.le_refl _, hlast hown, by simp [hhead, hown]⟩
    · rcases ih htail hrest with hmem | ⟨free, hle, hfree, heq⟩
      · exact .inl (List.mem_append_right _ hmem)
      · exact .inr ⟨free, Int.le_trans (toInt_le_indexAfter hlast) hle, hfree, heq⟩

/-- The keys of items are among those under which they are stored. -/
theorem keys_subset_stored (index : Int64) (items : List Item) :
    keys items ⊆ Entries.keys (stored index items) := by
  induction items generalizing index with
  | nil => exact List.Subset.refl _
  | cons item items ih =>
    intro key hkey
    rw [keys_cons] at hkey
    rcases List.mem_append.1 hkey with hown | hrest
    · have hitem := Option.mem_toList.1 hown
      exact List.mem_cons.2 (.inl (by rw [hitem]; rfl))
    · exact List.mem_cons_of_mem _ (ih _ hrest)

/-- Items with different keys are stored under different keys if no key repeats the index of an item
before it. -/
theorem nodup_keys_stored_iff {index : Int64} {items : List Item} (h : ¬RunsOut index items)
    (hkeys : (keys items).Nodup) :
    (Entries.keys (stored index items)).Nodup ↔ KeepsIndices index items := by
  induction items generalizing index with
  | nil => exact iff_of_true List.nodup_nil trivial
  | cons item items ih =>
    rw [keys_cons, List.nodup_append] at hkeys
    obtain ⟨-, hrest, hdisjoint⟩ := hkeys
    obtain ⟨hitem, htail⟩ := not_or.1 h
    have hcons : (Entries.keys (stored index (item :: items))).Nodup ↔
        item.key.getD (indexKey index) ∉ Entries.keys (stored (indexAfter index item) items) ∧
          (Entries.keys (stored (indexAfter index item) items)).Nodup := List.nodup_cons
    rw [hcons, ih htail hrest, KeepsIndices]
    refine and_congr_left fun _ => ?_
    cases hown : item.key with
    | some key =>
      -- A key differs from those after it, and the indices after it lie past it.
      refine iff_of_true (fun hmem => ?_) (by simp)
      rcases mem_keys_stored htail hmem with hother | ⟨free, hle, hfree, heq⟩
      · exact hdisjoint key (by simp [hown]) key hother rfl
      · rw [Option.getD_some] at heq
        rw [indexAfter, hown, heq] at hle
        exact hfree (eq_maxValue_of_nextIndex_le hle).2
    | none =>
      rw [Option.getD_none]
      refine ⟨fun hnot _ hmem => hnot (keys_subset_stored _ _ hmem), fun hnot hmem => ?_⟩
      rcases mem_keys_stored htail hmem with hother | ⟨free, hle, -, heq⟩
      · exact hnot rfl hother
      · rw [indexAfter, hown, ← indexKey_injective heq] at hle
        dsimp only at hle
        rw [toInt_succ fun hlast => hitem ⟨hown, hlast⟩] at hle
        omega

/-- An entry holds an item: its value under its key, or under an integer if it has none. -/
structure HeldBy (item : Item) (entry : String × Value) : Prop where
  /-- The value is that of the item. -/
  value : entry.2 = item.value
  /-- The key is that of the item, if it has one. -/
  key : ∀ key ∈ item.key, entry.1 = key
  /-- The key is an integer, if the item has none. -/
  integer : item.key = none → (Literal.integer? entry.1.toList).isSome = true

/-- Items are held by the entries as which they are stored. -/
theorem forall₂_heldBy_stored (index : Int64) (items : List Item) :
    List.Forall₂ HeldBy items (stored index items) := by
  induction items generalizing index with
  | nil => exact .nil
  | cons item items ih =>
    refine .cons ⟨rfl, fun key hkey => by rw [Option.mem_def.1 hkey]; rfl, fun hnone => ?_⟩ (ih _)
    rw [hnone, Option.getD_none, integer?_indexKey]
    rfl

/-- A collection with a key keeps all its items, each in an entry with a key of its own and all in
their order, exactly if no key repeats the index of an item before it. -/
theorem exists_collect_iff {items : List Item} (hkeys : (keys items).Nodup)
    (hkeyed : keys items ≠ []) (hlength : items.length < 2 ^ 62)
    (hinteger : ∀ key ∈ keys items, ∀ n ∈ Literal.integer? key.toList, n.toInt < 2 ^ 62)
    (preferMapping : Bool) :
    (∃ entries, collect preferMapping items = .ok (.mapping entries) ∧
      List.Forall₂ HeldBy items entries ∧ (Entries.keys entries).Nodup) ↔ KeepsIndices 0 items := by
  have hruns := not_runsOut hlength hinteger
  have hcollect : collect preferMapping items =
      .ok (.mapping (Entries.ofList (stored 0 items))) := by
    rw [collect_eq_ite hkeyed, if_neg hruns]
  have hheld := forall₂_heldBy_stored 0 items
  rw [← nodup_keys_stored_iff hruns hkeys, ← Entries.length_ofList_iff]
  constructor
  · rintro ⟨entries, hentries, hall, -⟩
    rw [hcollect] at hentries
    cases hentries
    exact hall.length_eq.symm.trans hheld.length_eq
  · intro hkept
    have hnodup := (Entries.length_ofList_iff _).1 hkept
    rw [Entries.ofList_of_nodup hnodup] at hcollect
    exact ⟨_, hcollect, hheld, hnodup⟩

/-- Items with and without keys are all kept where the only index among the keys stands before the
items without one. -/
theorem exists_collect_of_index_first :
    ∃ entries, collect false [⟨some "4", .string "a"⟩, ⟨none, .string "b"⟩, ⟨some "k", .null⟩,
        ⟨none, .string "c"⟩] = .ok (.mapping entries) ∧
      List.Forall₂ HeldBy [⟨some "4", .string "a"⟩, ⟨none, .string "b"⟩, ⟨some "k", .null⟩,
        ⟨none, .string "c"⟩] entries ∧ (Entries.keys entries).Nodup := by
  have hinteger : ["4", "k"].all (fun key =>
      (Literal.integer? key.toList).all fun n => n.toInt < 2 ^ 62) = true := by decide +kernel
  refine (exists_collect_iff (by decide) (by decide) (by decide)
    (fun key hkey n hn => ?_) false).2 ?_
  · have hkey := List.all_eq_true.1 hinteger key hkey
    rw [Option.mem_def.1 hn] at hkey
    exact of_decide_eq_true hkey
  · simp only [KeepsIndices]
    decide +kernel

/-- A key that is written as the index of an item before it takes the place of that item: of two
items one is left. -/
theorem collect_index_repeated :
    collect false [⟨none, .string "a"⟩, ⟨some "0", .string "v"⟩] =
        .ok (.mapping [("0", .string "v")]) ∧
      ¬ List.Forall₂ HeldBy [⟨none, .string "a"⟩, ⟨some "0", .string "v"⟩]
        [("0", .string "v")] :=
  ⟨rfl, fun h => absurd h.length_eq (by decide)⟩

end Item

end NeonAudit
