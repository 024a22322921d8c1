import NeonAudit.Proofs.Document.Legible

/-!
# Decoding undoes encoding

A value without chains whose leaves are spelled by literals or strings is legible if none of its
mappings repeats a key. The text of a legible value is a document of one inline value, so it is
decoded to the value.
-/

namespace NeonAudit

namespace Value

mutual

/-- The text of the value spells it: its floats are finite, its dates and times are spelled by
literals, and its entities are no chains, have no entity as their name, and a collection for their
arguments. -/
def Spellable : Value → Prop
  | scalar s => s.Spellable
  | sequence items => SpellableItems items
  | mapping entries => SpellableEntries entries
  | entity name arguments =>
    name.isEntity = false ∧ Spellable name ∧ arguments.isArguments = true ∧ Spellable arguments
  | chain _ => False
  | dateTime d => d.Spellable

/-- The texts of the values spell them. -/
def SpellableItems : List Value → Prop
  | [] => True
  | item :: items => Spellable item ∧ SpellableItems items

/-- The texts of the values below entries spell them. -/
def SpellableEntries : List (String × Value) → Prop
  | [] => True
  | (_, value) :: entries => Spellable value ∧ SpellableEntries entries

end

/-- Each of the items is spelled. -/
theorem spellable_of_mem {items : List Value} (h : SpellableItems items) {item : Value}
    (hmem : item ∈ items) : item.Spellable := by
  induction items with
  | nil => contradiction
  | cons first items ih =>
    rcases List.mem_cons.1 hmem with rfl | hmem
    · exact h.1
    · exact ih h.2 hmem

/-- Each of the values below entries is spelled. -/
theorem spellable_of_mem_entries {entries : List (String × Value)} (h : SpellableEntries entries)
    {key : String} {value : Value} (hmem : (key, value) ∈ entries) : value.Spellable := by
  induction entries with
  | nil => contradiction
  | cons entry entries ih =>
    rcases List.mem_cons.1 hmem with rfl | hmem
    · exact h.1
    · exact ih h.2 hmem

/-- A value that is spelled and repeats no keys is legible. -/
theorem legible_of_spellable {value : Value} (h : value.Spellable) (hdistinct : value.Distinct) :
    value.Legible := by
  intro part hpart
  induction hpart with
  | self =>
    cases part with
    | scalar s => exact h
    | sequence items => trivial
    | mapping entries => exact hdistinct.1
    | entity name arguments => exact ⟨h.1, h.2.2.1⟩
    | chain links => exact h.elim
    | dateTime d => exact h
  | item hmem _ ih => exact ih (spellable_of_mem h hmem) (distinct_of_mem hdistinct hmem)
  | entry hmem _ ih =>
    exact ih (spellable_of_mem_entries h hmem) (distinct_of_mem_entries hdistinct.2 hmem)
  | name _ ih => exact ih h.2.1 hdistinct.1
  | arguments _ ih => exact ih h.2.2.2 hdistinct.2
  | linkName => exact h.elim
  | linkArguments => exact h.elim

/-- The text of a value is read as the value, and if the value is no entity then whatever
follows. -/
theorem spelled_text (value : Value) {depth : Nat} (h : value.Spellable)
    (hdistinct : value.Distinct) (hnest : value.nest ≤ depth) :
    Spelled value.text fun _ tokens =>
      Reads depth tokens value ∧ (value.isEntity = false → ReadsPlain depth tokens value) :=
  (legible_of_spellable h hdistinct).spelled hnest

/-- The text of a legible value is decoded to the value. -/
theorem Legible.decode_eq {value : Value} (h : value.Legible) (hnest : value.nest ≤ 255) :
    decode value.encode = .ok value := by
  have hdocument : Spelled value.text (ReadsDocument value) :=
    (h.spelled hnest).mono fun hread _ finish _ hafter =>
      hread.1.block finish [] hafter.endsValue
  have hdecode := @decodeChars_of_spelled _ [] _ hdocument rfl
  rwa [List.append_nil, ← String.toList_ofList (l := value.text)] at hdecode

/-- The text of a value is decoded to the value: strings, keys, numbers, dates and the order of
entries all come back. -/
theorem decode_encode {value : Value} (h : value.Spellable) (hdistinct : value.Distinct)
    (hnest : value.nest ≤ 255) : decode value.encode = .ok value :=
  (legible_of_spellable h hdistinct).decode_eq hnest

/-- A mapping with a key in need of quotes, numbers, a word that is no string without them, a date
with an offset and an entity comes back. -/
theorem decode_encode_mapping :
    decode "\x7b\"a: b\": [-5, 0.1, \"yes\", 2024-02-29 23:59:59.500 -01:30], 7: e(k: null)\x7d" =
      .ok (.mapping [
        ("a: b", .sequence [.scalar (.int (-5)), .scalar (.float ⟨0x3fb999999999999a⟩),
          .string "yes", .dateTime ⟨⟨2024, 2, 29, by decide⟩, ⟨23, 59, 59, 500000000, by decide⟩,
            some ⟨-5400, by decide⟩⟩]),
        ("7", .entity (.string "e") (.mapping [("k", .null)]))]) := by
  have hdecode := @decode_encode (.mapping [
      ("a: b", .sequence [.scalar (.int (-5)), .scalar (.float ⟨0x3fb999999999999a⟩),
        .string "yes", .dateTime ⟨⟨2024, 2, 29, by decide⟩, ⟨23, 59, 59, 500000000, by decide⟩,
          some ⟨-5400, by decide⟩⟩]),
      ("7", .entity (.string "e") (.mapping [("k", .null)]))])
    ⟨⟨trivial, (by decide : Binary64.isFinite ⟨0x3fb999999999999a⟩ = true), trivial,
        ⟨by decide, by decide, by decide⟩, trivial⟩,
      ⟨rfl, trivial, rfl, trivial, trivial⟩, trivial⟩
    ⟨by decide, ⟨trivial, trivial, trivial, trivial, trivial⟩,
      ⟨trivial, by decide, trivial, trivial⟩, trivial⟩
    (by decide)
  exact (congrArg decode (by decide +kernel)).trans hdecode

end Value

end NeonAudit
