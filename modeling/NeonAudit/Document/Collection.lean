import NeonAudit.Document.Parser
import NeonAudit.Literal.Number

/-!
# Collections

A collection is written as items, each with a key or without. If no item has a key the collection
is a sequence, and otherwise a mapping in which an item without a key gets the least index that is
free: past all indices among the keys before it, and not a key of an item before it. Indices are
integers of 64 bits, and the one after that of an item must be one too, or decoding is broken off.
Brackets decide what a collection without items is.
-/

namespace NeonAudit

/-- An item of a collection. -/
structure Item where
  /-- The key, if the item has one. -/
  key : Option String
  /-- The value of the item. -/
  value : Value

namespace Item

/-- The keys of those items that have one. -/
def keys (items : List Item) : List String :=
  items.filterMap Item.key

/-- The key that stands for an index. -/
def indexKey (index : Int64) : String :=
  String.ofList (integerText index.toInt)

/-- The index after an index; there is none after the largest integer of 64 bits. -/
def successor? (index : Int64) : Option Int64 :=
  if index = Int64.maxValue then none else some (index + 1)

/-- The least index that is not a key, among the given one and the `count` indices after it. -/
def freeIndex? (entries : List (String × Value)) : (count : Nat) → (index : Int64) → Option Int64
  | 0, index => some index
  | count + 1, index =>
    if Entries.contains entries (indexKey index) then
      (successor? index).bind (freeIndex? entries count)
    else some index

/-- The index to go on with after a key: past the key, if the key is an index not below. It stays at
the largest integer of 64 bits. -/
def nextIndex (index : Int64) (key : String) : Int64 :=
  match Literal.integer? key.toList with
  | none => index
  | some n => if index ≤ n then (successor? n).getD Int64.maxValue else index

/-- The entries with those of the items inserted after them, where `index` is the next to use; there
are none if the indices run out. -/
def insertAll? (index : Int64) (entries : List (String × Value)) :
    List Item → Option (List (String × Value))
  | [] => some entries
  | ⟨some key, value⟩ :: items =>
    insertAll? (nextIndex index key) (Entries.insert key value entries) items
  | ⟨none, value⟩ :: items => do
    let free ← freeIndex? entries entries.length index
    let next ← successor? free
    insertAll? next (Entries.insert (indexKey free) value entries) items

/-- The collection of the items; `preferMapping` decides what it is without items. -/
def collect (preferMapping : Bool) (items : List Item) : Except DecodeFailure Value :=
  if (keys items).isEmpty && !(items.isEmpty && preferMapping) then
    .ok (.sequence (items.map Item.value))
  else
    match insertAll? 0 [] items with
    | none => .error (.fault .index)
    | some entries => .ok (.mapping entries)

/-- Collecting items fails only for their indices. -/
theorem failure_of_collect {preferMapping : Bool} {items : List Item} {failure : DecodeFailure}
    (h : collect preferMapping items = .error failure) :
    failure = .fault .index ∧ insertAll? 0 [] items = none := by
  unfold collect at h
  split at h
  · contradiction
  · split at h
    · rename_i hnone
      exact ⟨(Except.error.inj h).symm, hnone⟩
    · contradiction

end Item

end NeonAudit
