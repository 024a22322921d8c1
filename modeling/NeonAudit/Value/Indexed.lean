import NeonAudit.Value.Entries

/-!
# Entries with an index of their keys

A collection that is built up key by key is kept together with an index, which gives the position of
the entry of each key, so that no operation searches the entries. The index is written once, when a
key is new, because an entry never moves.
-/

namespace NeonAudit

/-- Entries in the order in which their keys were first inserted, with an index of the keys. -/
structure IndexedEntries (α : Type) where
  /-- The entries. -/
  entries : List (String × α)
  /-- The position of the entry of each key. -/
  index : List (String × Nat)

namespace IndexedEntries

variable {α : Type}

/-- No entries. -/
def empty : IndexedEntries α :=
  ⟨[], []⟩

/-- The number of entries. -/
def size (map : IndexedEntries α) : Nat :=
  map.entries.length

/-- Whether there are no entries. -/
def isEmpty (map : IndexedEntries α) : Bool :=
  map.entries.isEmpty

/-- The keys in order of first insertion. -/
def keys (map : IndexedEntries α) : List String :=
  Entries.keys map.entries

/-- The value at the position that the index gives for a key. -/
def get? (map : IndexedEntries α) (key : String) : Option α :=
  (Entries.get? map.index key).bind fun position => map.entries[position]?.map Prod.snd

/-- Whether the index has the key. -/
def contains (map : IndexedEntries α) (key : String) : Bool :=
  Entries.contains map.index key

/-- The value that is replaced when a value is stored under a key, and the entries after that: the
value stands at the position of the key, or at the end if the key is new. -/
def insert (map : IndexedEntries α) (key : String) (value : α) : Option α × IndexedEntries α :=
  match Entries.get? map.index key with
  | some position =>
    (map.entries[position]?.map Prod.snd,
      { map with entries := map.entries.modify position fun entry => (entry.1, value) })
  | none =>
    (none, ⟨map.entries ++ [(key, value)], Entries.insert key map.entries.length map.index⟩)

/-- The entries that arise from inserting the pairs one after another. -/
def ofList (pairs : List (String × α)) : IndexedEntries α :=
  pairs.foldl (fun map pair => (map.insert pair.1 pair.2).2) empty

end IndexedEntries

end NeonAudit
