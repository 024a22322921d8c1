import NeonAudit.Proofs.Document.Collecting
import NeonAudit.Proofs.Entries
import NeonAudit.Proofs.Literal.Number

/-!
# Collections whose indices run out

The next index is past all indices among the keys before it, so the search for a free one ends where
it starts. This can be wrong only where the largest integer of 64 bits has been reached, and there
an item without a key has no index after it in any case. So a collection with a key either holds its
items as they are `stored`, or cannot be made because there is an item without a key where the next
index is the largest one. This takes a key that is an integer with more items without a key after it
than there are integers past it, or that many items in all.
-/

namespace NeonAudit.Item

variable {index : Int64} {entries : List (String × Value)} {item : Item} {items : List Item}

/-- The largest index is a bound. -/
theorem eq_maxValue_iff : index = Int64.maxValue ↔ 2 ^ 63 ≤ index.toInt + 1 := by
  have hmax : Int64.maxValue.toInt = 2 ^ 63 - 1 := Int64.toInt_maxValue
  have hlt := index.toInt_lt
  rw [← Int64.toInt_inj, hmax]
  omega

/-- Below the largest index there is a next one. -/
theorem toInt_succ (h : index ≠ Int64.maxValue) : (index + 1).toInt = index.toInt + 1 := by
  have hlt := mt eq_maxValue_iff.2 h
  have hle := index.le_toInt
  rw [Int64.toInt_add, Int64.toInt_one]
  exact Int.bmod_eq_of_le (by omega) (by omega)

/-- Behind a key that is an integer, the next index is past it, as far as there are indices. -/
theorem toInt_nextIndex {key : String} {n : Int64} (h : Literal.integer? key.toList = some n) :
    (nextIndex index key).toInt = max index.toInt (min (n.toInt + 1) (2 ^ 63 - 1)) := by
  have hmax : Int64.maxValue.toInt = 2 ^ 63 - 1 := Int64.toInt_maxValue
  have hindex := index.toInt_lt
  rw [nextIndex, h]
  dsimp only
  split
  · rename_i hle
    rw [Int64.le_iff_toInt_le] at hle
    rw [successor?]
    split
    · rename_i hlast
      rw [Option.getD_none, hlast, hmax]
      omega
    · rename_i hnot
      have hlt := mt eq_maxValue_iff.2 hnot
      rw [Option.getD_some, toInt_succ hnot]
      omega
  · rename_i hnot
    rw [Int64.le_iff_toInt_le] at hnot
    omega

/-- Behind any other key, the next index stays. -/
theorem nextIndex_of_integer?_eq_none {key : String} (h : Literal.integer? key.toList = none) :
    nextIndex index key = index := by
  rw [nextIndex, h]

/-- The next index does not go down. -/
theorem toInt_le_nextIndex (index : Int64) (key : String) :
    index.toInt ≤ (nextIndex index key).toInt := by
  cases h : Literal.integer? key.toList with
  | none => rw [nextIndex_of_integer?_eq_none h]
  | some n =>
    rw [toInt_nextIndex h]
    exact Int.le_max_left _ _

/-- The key of an index is read as the index. -/
theorem integer?_indexKey (index : Int64) :
    Literal.integer? (indexKey index).toList = some index := by
  rw [indexKey, String.toList_ofList]
  exact Literal.integer?_eq_some_iff.2 (Literal.spellsDecimal_integerText index.toInt)

/-- Different indices have different keys. -/
theorem indexKey_injective {first second : Int64} (h : indexKey first = indexKey second) :
    first = second := by
  have hread := integer?_indexKey first
  rw [h, integer?_indexKey] at hread
  exact (Option.some.inj hread).symm

/-- Behind the key of an index, the next index is past it unless both are the largest one. -/
theorem eq_maxValue_of_nextIndex_le {free : Int64}
    (h : (nextIndex index (indexKey free)).toInt ≤ free.toInt) :
    nextIndex index (indexKey free) = Int64.maxValue ∧ free = Int64.maxValue := by
  have hlt := free.toInt_lt
  rw [eq_maxValue_iff, eq_maxValue_iff]
  rw [toInt_nextIndex (integer?_indexKey free)] at h ⊢
  omega

/-- The index to go on with after an item: past the index that an item without a key gets. -/
def indexAfter (index : Int64) (item : Item) : Int64 :=
  match item.key with
  | some key => nextIndex index key
  | none => index + 1

/-- The keys and values of items as they are stored, where `index` is the next to use. -/
def stored (index : Int64) : List Item → List (String × Value)
  | [] => []
  | item :: items =>
    (item.key.getD (indexKey index), item.value) :: stored (indexAfter index item) items

/-- An item without a key is to get the largest index, where `index` is the next to use. -/
def RunsOut (index : Int64) : List Item → Prop
  | [] => False
  | item :: items =>
    item.key = none ∧ index = Int64.maxValue ∨ RunsOut (indexAfter index item) items

instance (index : Int64) : (items : List Item) → Decidable (RunsOut index items)
  | [] => .isFalse id
  | item :: items =>
    have : Decidable (RunsOut (indexAfter index item) items) := instDecidableRunsOut _ items
    inferInstanceAs (Decidable (_ ∨ _))

/-- The index after an item is not below that before it, if there is one. -/
theorem toInt_le_indexAfter (h : item.key = none → index ≠ Int64.maxValue) :
    index.toInt ≤ (indexAfter index item).toInt := by
  unfold indexAfter
  split
  · exact toInt_le_nextIndex index _
  · rename_i hnone
    rw [toInt_succ (h hnone)]
    omega

/-- No index from the given one on is a key, unless this is the largest one. -/
def Unused (index : Int64) (entries : List (String × Value)) : Prop :=
  index ≠ Int64.maxValue →
    ∀ free : Int64, index.toInt ≤ free.toInt → indexKey free ∉ Entries.keys entries

/-- The indices after that of an item are unused when the item has been inserted. -/
theorem Unused.insert (h : Unused index entries)
    (hitem : item.key = none → index ≠ Int64.maxValue) :
    Unused (indexAfter index item)
      (Entries.insert (item.key.getD (indexKey index)) item.value entries) := by
  intro hnext free hfree hmem
  have hle := toInt_le_indexAfter hitem
  have hindex : index ≠ Int64.maxValue := fun hlast =>
    hnext (eq_maxValue_iff.2 (Int.le_trans (eq_maxValue_iff.1 hlast) (Int.add_le_add_right hle 1)))
  have hkey : indexKey free = item.key.getD (indexKey index) := by
    have hold := h hindex free (Int.le_trans hle hfree)
    rw [Entries.keys_insert] at hmem
    split at hmem
    · exact absurd hmem hold
    · exact List.mem_singleton.1 ((List.mem_append.1 hmem).resolve_left hold)
  obtain ⟨key?, value⟩ := item
  cases key? with
  | some key =>
    obtain rfl : indexKey free = key := hkey
    exact hnext (eq_maxValue_of_nextIndex_le hfree).1
  | none =>
    obtain rfl : free = index := indexKey_injective hkey
    have hsucc : (indexAfter free ⟨none, value⟩).toInt = free.toInt + 1 := toInt_succ hindex
    omega

/-- An item without a key cannot be inserted where the next index is the largest one. -/
theorem insertAll?_none_of_eq_maxValue (entries : List (String × Value)) (value : Value)
    (items : List Item) : insertAll? Int64.maxValue entries (⟨none, value⟩ :: items) = none := by
  have hlast : successor? Int64.maxValue = none := if_pos rfl
  have hfree : (freeIndex? entries entries.length Int64.maxValue).bind successor? = none := by
    cases entries.length with
    | zero => exact hlast
    | succ count =>
      rw [freeIndex?, hlast, Option.bind_none]
      split
      · rfl
      · exact hlast
  cases hsearch : freeIndex? entries entries.length Int64.maxValue with
  | none => rw [insertAll?, hsearch, Option.bind_eq_bind, Option.bind_none]
  | some free =>
    rw [hsearch, Option.bind_some] at hfree
    rw [insertAll?, hsearch, Option.bind_eq_bind, Option.bind_some, hfree]
    rfl

/-- An index that is no key is free at once. -/
theorem freeIndex?_of_notMem (h : indexKey index ∉ Entries.keys entries) (count : Nat) :
    freeIndex? entries count index = some index := by
  cases count with
  | zero => rfl
  | succ count => rw [freeIndex?, if_neg (mt Entries.contains_iff.1 h)]

/-- Where there is an index left for it, an item is inserted as it is stored. -/
theorem insertAll?_cons (h : Unused index entries)
    (hitem : item.key = none → index ≠ Int64.maxValue) (items : List Item) :
    insertAll? index entries (item :: items) = insertAll? (indexAfter index item)
      (Entries.insert (item.key.getD (indexKey index)) item.value entries) items := by
  obtain ⟨key?, value⟩ := item
  cases key? with
  | some key => rfl
  | none =>
    have hindex := hitem rfl
    have hfree := freeIndex?_of_notMem (h hindex index (Int.le_refl _)) entries.length
    have hnext : successor? index = some (index + 1) := if_neg hindex
    rw [insertAll?, hfree, Option.bind_eq_bind, Option.bind_some, hnext]
    rfl

/-- Items are inserted one after another as they are stored, unless the indices run out. -/
theorem insertAll?_eq_ite (h : Unused index entries) :
    insertAll? index entries items =
      if RunsOut index items then none
      else some ((stored index items).foldl
        (fun entries pair => Entries.insert pair.1 pair.2 entries) entries) := by
  induction items generalizing index entries with
  | nil => rfl
  | cons item items ih =>
    by_cases hlast : item.key = none ∧ index = Int64.maxValue
    · obtain ⟨key?, value⟩ := item
      obtain ⟨rfl, rfl⟩ := hlast
      rw [insertAll?_none_of_eq_maxValue, if_pos (.inl ⟨rfl, rfl⟩)]
    · have hitem (hnone : item.key = none) : index ≠ Int64.maxValue :=
        fun hindex => hlast ⟨hnone, hindex⟩
      have hcons : RunsOut (indexAfter index item) items ↔ RunsOut index (item :: items) :=
        (or_iff_right hlast).symm
      rw [insertAll?_cons h hitem, ih (h.insert hitem)]
      exact if_congr hcons rfl rfl

/-- Collecting items with a key fails exactly if the indices run out, and otherwise they are
inserted as they are stored. -/
theorem collect_eq_ite (hkeyed : keys items ≠ []) (preferMapping : Bool) :
    collect preferMapping items =
      if RunsOut 0 items then .error (.fault .index)
      else .ok (.mapping (Entries.ofList (stored 0 items))) := by
  have hunused : Unused 0 [] := fun _ _ _ => List.not_mem_nil
  have hinsert : insertAll? 0 [] items =
      if RunsOut 0 items then none else some (Entries.ofList (stored 0 items)) :=
    insertAll?_eq_ite hunused
  unfold collect
  rw [List.isEmpty_eq_false_iff.2 hkeyed, Bool.false_and, if_neg Bool.false_ne_true]
  by_cases hruns : RunsOut 0 items
  · rw [hinsert, if_pos hruns, if_pos hruns]
  · rw [hinsert, if_neg hruns, if_neg hruns]

/-- Items are collected unless one of them has a key and the indices run out. -/
theorem collect_eq_error_iff {preferMapping : Bool} {failure : DecodeFailure} :
    collect preferMapping items = .error failure ↔
      failure = .fault .index ∧ keys items ≠ [] ∧ RunsOut 0 items := by
  constructor
  · intro h
    have hkeyed : keys items ≠ [] := by
      intro hnil
      have hnone := (failure_of_collect h).2
      unfold collect at h
      rw [hnil] at h
      cases items <;> contradiction
    rw [collect_eq_ite hkeyed] at h
    split at h
    · rename_i hruns
      exact ⟨(Except.error.inj h).symm, hkeyed, hruns⟩
    · contradiction
  · intro h
    obtain ⟨rfl, hkeyed, hruns⟩ := h
    rw [collect_eq_ite hkeyed, if_pos hruns]

/-- How many items have no key. -/
def keyless (items : List Item) : Nat :=
  items.countP fun item => item.key.isNone

/-- A key that is an integer has more items without a key after it than there are integers of 64
bits past it; past the largest one there is none. -/
def Outnumbered (items : List Item) : Prop :=
  ∃ key value after n, ⟨some key, value⟩ :: after <:+ items ∧
    Literal.integer? key.toList = some n ∧
      2 ^ 63 ≤ min (n.toInt + 1) (2 ^ 63 - 1) + keyless after

/-- An item without a key makes no key outnumbered that is not after it. -/
theorem outnumbered_cons_none {value : Value} :
    Outnumbered (⟨none, value⟩ :: items) ↔ Outnumbered items := by
  refine exists_congr fun key => exists_congr fun own => exists_congr fun after =>
    exists_congr fun n => and_congr_left fun _ => ?_
  rw [List.suffix_cons_iff, or_iff_right (by simp)]

/-- A key can be outnumbered by what is after it. -/
theorem outnumbered_cons_some {key : String} {value : Value} :
    Outnumbered (⟨some key, value⟩ :: items) ↔
      (∃ n, Literal.integer? key.toList = some n ∧
        2 ^ 63 ≤ min (n.toInt + 1) (2 ^ 63 - 1) + keyless items) ∨ Outnumbered items := by
  constructor
  · intro h
    obtain ⟨own, value', after, n, hsuffix, hread, hcount⟩ := h
    rcases List.suffix_cons_iff.1 hsuffix with heq | hlater
    · cases heq
      exact .inl ⟨n, hread, hcount⟩
    · exact .inr ⟨own, value', after, n, hlater, hread, hcount⟩
  · intro h
    rcases h with ⟨n, hread, hcount⟩ | ⟨own, value', after, n, hsuffix, hread, hcount⟩
    · exact ⟨key, value, items, n, List.suffix_rfl, hread, hcount⟩
    · exact ⟨own, value', after, n, hsuffix.trans (List.suffix_cons _ _), hread, hcount⟩

/-- The indices run out exactly where there are more items without a key than integers of 64 bits
from the next index on, or a key is outnumbered. -/
theorem runsOut_iff :
    RunsOut index items ↔ 2 ^ 63 ≤ index.toInt + keyless items ∨ Outnumbered items := by
  induction items generalizing index with
  | nil =>
    have hlt := index.toInt_lt
    have hnot : ¬Outnumbered [] := by
      rintro ⟨key, value, after, n, hsuffix, -⟩
      exact List.cons_ne_nil _ _ (List.suffix_nil.1 hsuffix)
    have hcount : ¬2 ^ 63 ≤ index.toInt + (keyless [] : Int) := by
      simpa [keyless] using hlt
    simp only [RunsOut, hnot, hcount, or_false]
  | cons item items ih =>
    obtain ⟨key?, value⟩ := item
    rw [RunsOut, ih]
    cases key? with
    | none =>
      have hcount : keyless (⟨none, value⟩ :: items) = keyless items + 1 := by
        simp [keyless]
      rw [outnumbered_cons_none, hcount, ← or_assoc]
      refine or_congr_left ?_
      by_cases hlast : index = Int64.maxValue
      · have hbound := eq_maxValue_iff.1 hlast
        exact iff_of_true (.inl ⟨rfl, hlast⟩) (by omega)
      · have hsucc : (indexAfter index ⟨none, value⟩).toInt = index.toInt + 1 := toInt_succ hlast
        rw [or_iff_right fun h => hlast h.2, hsucc]
        omega
    | some key =>
      have hcount : keyless (⟨some key, value⟩ :: items) = keyless items := by
        simp [keyless]
      rw [outnumbered_cons_some, hcount, or_iff_right (by simp), ← or_assoc]
      refine or_congr_left ?_
      cases hread : Literal.integer? key.toList with
      | none => simp [indexAfter, nextIndex_of_integer?_eq_none hread]
      | some n =>
        have hnext : (indexAfter index ⟨some key, value⟩).toInt =
            max index.toInt (min (n.toInt + 1) (2 ^ 63 - 1)) := toInt_nextIndex hread
        simp only [hnext, Option.some.injEq, exists_eq_left']
        omega

end NeonAudit.Item
