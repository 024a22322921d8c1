/-!
# Keyed entries in insertion order

A collection of keyed values is the list of its entries in the order in which their keys were first
inserted. Inserting under a key that is present replaces the value in place. The operations are
stated for any payload; the tree of values writes its lists of entries out in full.
-/

namespace NeonAudit.Entries

variable {α : Type}

/-- The keys in order of first insertion. -/
def keys (entries : List (String × α)) : List String :=
  entries.map Prod.fst

/-- The value under a key. -/
def get? : List (String × α) → (key : String) → Option α
  | [], _ => none
  | entry :: rest, key => if entry.1 = key then some entry.2 else get? rest key

/-- Whether there is an entry under the key. -/
def contains (entries : List (String × α)) (key : String) : Bool :=
  (get? entries key).isSome

/-- The entries with a value stored under a key: in place of the value that is there, or at the
end. -/
def insert (key : String) (value : α) : List (String × α) → List (String × α)
  | [] => [(key, value)]
  | entry :: rest =>
    if entry.1 = key then (key, value) :: rest else entry :: insert key value rest

/-- The entries that arise from inserting the pairs one after another. -/
def ofList (pairs : List (String × α)) : List (String × α) :=
  pairs.foldl (fun entries pair => insert pair.1 pair.2 entries) []

/-- A key is found exactly when it is one of the keys. -/
theorem contains_iff {entries : List (String × α)} {key : String} :
    contains entries key = true ↔ key ∈ keys entries := by
  induction entries with
  | nil => simp [contains, get?, keys]
  | cons entry rest ih =>
    by_cases h : entry.1 = key
    · simp [contains, get?, keys, h]
    · have hne : key ≠ entry.1 := fun e => h e.symm
      simpa [contains, get?, keys, h, hne] using ih

/-- What is found under a key is one of the entries. -/
theorem mem_of_get? {entries : List (String × α)} {key : String} {value : α}
    (h : get? entries key = some value) : (key, value) ∈ entries := by
  induction entries with
  | nil => contradiction
  | cons entry rest ih =>
    rw [get?] at h
    split at h
    · rename_i hkey
      rw [← hkey, ← Option.some.inj h]
      exact List.mem_cons_self
    · exact List.mem_cons_of_mem _ (ih h)

/-- Where no key is repeated, each entry is what is found under its key. -/
theorem get?_eq_some_iff {entries : List (String × α)} (h : (keys entries).Nodup) {key : String}
    {value : α} : get? entries key = some value ↔ (key, value) ∈ entries := by
  refine ⟨mem_of_get?, fun hmem => ?_⟩
  induction entries with
  | nil => contradiction
  | cons entry rest ih =>
    obtain ⟨hnot, hrest⟩ := List.nodup_cons.1 h
    rw [get?]
    rcases List.mem_cons.1 hmem with rfl | hmem
    · exact if_pos rfl
    · rw [if_neg, ih hrest hmem]
      rintro rfl
      exact hnot (List.mem_map.2 ⟨_, hmem, rfl⟩)

/-- What each key is bound to after an insertion. -/
theorem get?_insert (key : String) (value : α) (entries : List (String × α)) (other : String) :
    get? (insert key value entries) other =
      if other = key then some value else get? entries other := by
  induction entries with
  | nil => simp [insert, get?, eq_comm]
  | cons entry rest ih => grind [insert, get?]

/-- An insertion keeps the order of the keys and appends a new one. -/
theorem keys_insert (key : String) (value : α) (entries : List (String × α)) :
    keys (insert key value entries) =
      if key ∈ keys entries then keys entries else keys entries ++ [key] := by
  induction entries with
  | nil => simp [insert, keys]
  | cons entry rest ih =>
    by_cases h : entry.1 = key
    · simp [insert, keys, h]
    · have hne : key ≠ entry.1 := fun e => h e.symm
      have hmap : keys (insert key value (entry :: rest)) =
          entry.1 :: keys (insert key value rest) := by simp [insert, keys, h]
      have hmem : key ∈ keys (entry :: rest) ↔ key ∈ keys rest := by simp [keys, hne]
      rw [hmap, ih]
      by_cases hk : key ∈ keys rest
      · rw [if_pos hk, if_pos (hmem.2 hk)]
        rfl
      · rw [if_neg hk, if_neg (mt hmem.1 hk)]
        rfl

/-- A value under a new key is stored at the end. -/
theorem insert_of_notMem {key : String} {entries : List (String × α)} (h : key ∉ keys entries)
    (value : α) : insert key value entries = entries ++ [(key, value)] := by
  induction entries with
  | nil => rfl
  | cons entry rest ih =>
    have hne : entry.1 ≠ key := fun heq => h (heq ▸ List.mem_cons_self)
    have hrest : key ∉ keys rest := fun hmem => h (List.mem_cons_of_mem _ hmem)
    rw [insert, if_neg hne, ih hrest]
    rfl

/-- Distinct keys stay distinct under insertion. -/
theorem nodup_keys_insert {key : String} {value : α} {entries : List (String × α)}
    (h : (keys entries).Nodup) : (keys (insert key value entries)).Nodup := by
  rw [keys_insert]
  split
  · exact h
  · rename_i hnot
    rw [List.nodup_append]
    exact ⟨h, by simp, fun a ha b hb hab => hnot (List.mem_singleton.1 hb ▸ hab ▸ ha)⟩

/-- Entries built by insertion have distinct keys. -/
theorem nodup_keys_ofList (pairs : List (String × α)) : (keys (ofList pairs)).Nodup := by
  suffices h : ∀ entries : List (String × α), (keys entries).Nodup →
      (keys (pairs.foldl (fun es pair => insert pair.1 pair.2 es) entries)).Nodup from
    h [] List.nodup_nil
  induction pairs with
  | nil => exact fun _ h => h
  | cons pair rest ih => exact fun entries h => ih _ (nodup_keys_insert h)

end NeonAudit.Entries
