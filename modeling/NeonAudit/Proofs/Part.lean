import NeonAudit.Value

/-!
# Parts of values

The parts of a value are the value itself and the parts of whatever is directly inside it: of its
items, of the values of its entries, and of its names and arguments. What holds of all parts of a
value holds of all parts of each of them.
-/

namespace NeonAudit.Value

/-- A value is found in another at some depth. -/
inductive IsPart (part : Value) : Value → Prop
  | self : IsPart part part
  | item {item items} : item ∈ items → IsPart part item → IsPart part (sequence items)
  | entry {key value entries} : (key, value) ∈ entries → IsPart part value →
      IsPart part (mapping entries)
  | name {name arguments} : IsPart part name → IsPart part (entity name arguments)
  | arguments {name arguments} : IsPart part arguments → IsPart part (entity name arguments)
  | linkName {name arguments links} : (name, arguments) ∈ links → IsPart part name →
      IsPart part (chain links)
  | linkArguments {name arguments links} : (name, arguments) ∈ links → IsPart part arguments →
      IsPart part (chain links)

/-- A part of a part is a part. -/
theorem IsPart.trans {part inner outer : Value} (h₁ : part.IsPart inner) (h₂ : inner.IsPart outer) :
    part.IsPart outer := by
  induction h₂ with
  | self => exact h₁
  | item hmem _ ih => exact .item hmem ih
  | entry hmem _ ih => exact .entry hmem ih
  | name _ ih => exact .name ih
  | arguments _ ih => exact .arguments ih
  | linkName hmem _ ih => exact .linkName hmem ih
  | linkArguments hmem _ ih => exact .linkArguments hmem ih

/-- What holds of a value if it holds of everything directly inside it holds of all values. -/
@[elab_as_elim]
theorem induction_inside {motive : Value → Prop} (hscalar : ∀ s, motive (scalar s))
    (hsequence : ∀ items, (∀ item ∈ items, motive item) → motive (sequence items))
    (hmapping : ∀ entries, (∀ entry ∈ entries, motive entry.2) → motive (mapping entries))
    (hentity : ∀ name arguments, motive name → motive arguments → motive (entity name arguments))
    (hchain : ∀ links, (∀ link ∈ links, motive link.1 ∧ motive link.2) → motive (chain links))
    (hdateTime : ∀ d, motive (dateTime d)) (value : Value) : motive value := by
  have ih (inner : Value) (_ : sizeOf inner < sizeOf value) : motive inner :=
    induction_inside hscalar hsequence hmapping hentity hchain hdateTime inner
  have hpair {α : Type} [SizeOf α] (pair : α × Value) :
      sizeOf pair = 1 + sizeOf pair.1 + sizeOf pair.2 := rfl
  cases value with
  | scalar s => exact hscalar s
  | sequence items =>
    refine hsequence items fun item hmem => ih item ?_
    have hsize := List.sizeOf_lt_of_mem hmem
    rw [sequence.sizeOf_spec]
    omega
  | mapping entries =>
    refine hmapping entries fun entry hmem => ih entry.2 ?_
    have hsize := List.sizeOf_lt_of_mem hmem
    rw [hpair] at hsize
    rw [mapping.sizeOf_spec]
    omega
  | entity name arguments =>
    refine hentity name arguments (ih name ?_) (ih arguments ?_) <;>
    · rw [entity.sizeOf_spec]
      omega
  | chain links =>
    refine hchain links fun link hmem => ?_
    have hsize := List.sizeOf_lt_of_mem hmem
    rw [hpair] at hsize
    refine ⟨ih link.1 ?_, ih link.2 ?_⟩ <;>
    · rw [chain.sizeOf_spec]
      omega
  | dateTime d => exact hdateTime d
termination_by sizeOf value

/-- Every part of the value has the property. -/
def Throughout (P : Value → Prop) (value : Value) : Prop :=
  ∀ part, IsPart part value → P part

namespace Throughout

variable {P Q : Value → Prop} {value : Value}

/-- What holds throughout a value holds of it. -/
theorem here (h : value.Throughout P) : P value :=
  h value .self

/-- What follows of every part holds throughout. -/
theorem mono (h : value.Throughout P) (himp : ∀ {part}, P part → Q part) : value.Throughout Q :=
  fun part hpart => himp (h part hpart)

/-- What holds throughout a value holds throughout its parts. -/
theorem part {inner : Value} (h : value.Throughout P) (hinner : inner.IsPart value) :
    inner.Throughout P :=
  fun part hpart => h part (hpart.trans hinner)

/-- What holds of a scalar holds throughout it. -/
theorem scalar {s : Scalar} (h : P (.scalar s)) : (Value.scalar s).Throughout P := by
  intro part hpart
  cases hpart
  exact h

/-- What holds of a date and time holds throughout it. -/
theorem dateTime {d : DateTime} (h : P (.dateTime d)) : (Value.dateTime d).Throughout P := by
  intro part hpart
  cases hpart
  exact h

/-- What holds of a sequence and throughout its items holds throughout the sequence. -/
theorem sequence {items : List Value} (h : P (.sequence items))
    (hitems : ∀ item ∈ items, item.Throughout P) : (Value.sequence items).Throughout P := by
  intro part hpart
  cases hpart with
  | self => exact h
  | item hmem hpart => exact hitems _ hmem part hpart

/-- What holds of a mapping and throughout its values holds throughout the mapping. -/
theorem mapping {entries : List (String × Value)} (h : P (.mapping entries))
    (hentries : ∀ entry ∈ entries, entry.2.Throughout P) :
    (Value.mapping entries).Throughout P := by
  intro part hpart
  cases hpart with
  | self => exact h
  | entry hmem hpart => exact hentries _ hmem part hpart

/-- What holds of an entity and throughout its name and arguments holds throughout the entity. -/
theorem entity {name arguments : Value} (h : P (.entity name arguments))
    (hname : name.Throughout P) (harguments : arguments.Throughout P) :
    (Value.entity name arguments).Throughout P := by
  intro part hpart
  cases hpart with
  | self => exact h
  | name hpart => exact hname part hpart
  | arguments hpart => exact harguments part hpart

/-- What holds of a chain and throughout its names and arguments holds throughout the chain. -/
theorem chain {links : List (Value × Value)} (h : P (.chain links))
    (hlinks : ∀ link ∈ links, link.1.Throughout P ∧ link.2.Throughout P) :
    (Value.chain links).Throughout P := by
  intro part hpart
  cases hpart with
  | self => exact h
  | linkName hmem hpart => exact (hlinks _ hmem).1 part hpart
  | linkArguments hmem hpart => exact (hlinks _ hmem).2 part hpart

end Throughout

/-- No mapping in a list of values repeats a key if none in a value of the list does. -/
theorem distinctItems_iff {items : List Value} :
    DistinctItems items ↔ ∀ item ∈ items, item.Distinct := by
  induction items with
  | nil => simp [DistinctItems]
  | cons item items ih => rw [DistinctItems, ih, List.forall_mem_cons]

/-- No mapping below a list of entries repeats a key if none in a value of the entries does. -/
theorem distinctEntries_iff {entries : List (String × Value)} :
    DistinctEntries entries ↔ ∀ entry ∈ entries, entry.2.Distinct := by
  induction entries with
  | nil => simp [DistinctEntries]
  | cons entry entries ih => rw [DistinctEntries, ih, List.forall_mem_cons]

/-- No mapping below a list of names with arguments repeats a key if none in a name or in arguments
does. -/
theorem distinctLinks_iff {links : List (Value × Value)} :
    DistinctLinks links ↔ ∀ link ∈ links, link.1.Distinct ∧ link.2.Distinct := by
  induction links with
  | nil => simp [DistinctLinks]
  | cons link links ih => rw [DistinctLinks, ih, List.forall_mem_cons, and_assoc]

/-- No mapping in any of the items repeats a key. -/
theorem distinct_of_mem {items : List Value} (h : DistinctItems items) {item : Value}
    (hmem : item ∈ items) : item.Distinct :=
  distinctItems_iff.1 h item hmem

/-- No mapping in any of the values below entries repeats a key. -/
theorem distinct_of_mem_entries {entries : List (String × Value)} (h : DistinctEntries entries)
    {key : String} {value : Value} (hmem : (key, value) ∈ entries) : value.Distinct :=
  distinctEntries_iff.1 h (key, value) hmem

/-- No mapping in a name or in arguments of the links repeats a key. -/
theorem distinct_of_mem_links {links : List (Value × Value)} (h : DistinctLinks links)
    {link : Value × Value} (hmem : link ∈ links) : link.1.Distinct ∧ link.2.Distinct :=
  distinctLinks_iff.1 h link hmem

end NeonAudit.Value
