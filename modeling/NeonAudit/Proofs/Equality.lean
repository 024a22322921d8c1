import Mathlib.Data.List.Forall2
import Mathlib.Data.List.Perm.Subperm
import NeonAudit.Proofs.Part

/-!
# Equality of values

Values are equal by type and value at their leaves, in order in sequences, and by keys in mappings.
So what is equal to a collection is a collection whose members are equal one by one, and from this
transitivity follows by induction on the first value. Symmetry needs that no mapping repeats a key:
then a mapping that finds all its keys in another one of the same size has all keys of it. A value
equals itself unless a NaN is in it, which differs even from itself.
-/

namespace NeonAudit

/-- Equality of numbers is transitive. -/
theorem Binary64.same_trans {x y z : Binary64} (hxy : x.same y = true) (hyz : y.same z = true) :
    x.same z = true := by
  simp only [same, Bool.and_eq_true, Bool.or_eq_true, Bool.not_eq_true', beq_iff_eq] at hxy hyz ⊢
  obtain ⟨⟨hx, -⟩, rfl | ⟨hx0, hy0⟩⟩ := hxy
  · exact ⟨⟨hx, hyz.1.2⟩, hyz.2⟩
  · obtain ⟨⟨-, hz⟩, rfl | ⟨-, hz0⟩⟩ := hyz
    · exact ⟨⟨hx, hz⟩, .inr ⟨hx0, hy0⟩⟩
    · exact ⟨⟨hx, hz⟩, .inr ⟨hx0, hz0⟩⟩

/-- Where no key is repeated, what is found under the key of an entry is its value. -/
theorem Entries.exists_get?_iff {α : Type} {entries : List (String × α)}
    (h : (keys entries).Nodup) {entry : String × α} (hentry : entry ∈ entries) {P : α → Prop} :
    (∃ found, get? entries entry.1 = some found ∧ P found) ↔ P entry.2 := by
  rw [(get?_eq_some_iff h).2 hentry]
  simp

namespace Scalar

/-- Equality of scalars is symmetric. -/
theorem same_comm (a b : Scalar) : a.same b = b.same a := by
  cases a <;> cases b
  case float.float x y => exact Binary64.same_comm x y
  all_goals first | rfl | exact BEq.comm

/-- Equality of scalars is transitive. -/
theorem same_trans {a b c : Scalar} (hab : a.same b = true) (hbc : b.same c = true) :
    a.same c = true := by
  cases a <;> cases b <;> first | contradiction | skip
  all_goals cases c <;> first | contradiction | skip
  case float.float.float => exact Binary64.same_trans hab hbc
  all_goals simp_all [same]

end Scalar

namespace Value

/-- Lists of values are equal if their members are, in order. -/
theorem sameItems_iff {as bs : List Value} :
    sameItems as bs = true ↔ List.Forall₂ (fun a b => a.same b = true) as bs := by
  induction as generalizing bs with
  | nil => cases bs <;> simp [sameItems]
  | cons a as ih => cases bs <;> simp [sameItems, ih]

/-- Lists of names with arguments are equal if their members are, in order. -/
theorem sameLinks_iff {as bs : List (Value × Value)} :
    sameLinks as bs = true ↔
      List.Forall₂ (fun a b => a.1.same b.1 = true ∧ a.2.same b.2 = true) as bs := by
  induction as generalizing bs with
  | nil => cases bs <;> simp [sameLinks]
  | cons a as ih =>
    cases bs with
    | nil => simp [sameLinks]
    | cons b bs => rw [sameLinks, Bool.and_eq_true, Bool.and_eq_true, ih, List.forall₂_cons]

/-- Entries are found among others if each of them has an equal value there under its key. -/
theorem sameEntries_iff {as bs : List (String × Value)} :
    sameEntries as bs = true ↔
      ∀ entry ∈ as, ∃ other, Entries.get? bs entry.1 = some other ∧
        entry.2.same other = true := by
  induction as with
  | nil => simp [sameEntries]
  | cons entry as ih =>
    obtain ⟨key, value⟩ := entry
    rw [sameEntries, Bool.and_eq_true, ih, List.forall_mem_cons]
    refine and_congr_left fun _ => ?_
    cases Entries.get? bs key <;> simp

/-- What is equal to a sequence is a sequence of equal items. -/
theorem sequence_same_iff {items : List Value} {other : Value} :
    (sequence items).same other = true ↔
      ∃ others, other = sequence others ∧
        List.Forall₂ (fun a b => a.same b = true) items others := by
  cases other <;> simp [same, sameItems_iff]

/-- What is equal to a mapping is a mapping with as many entries, and has an equal value under each
key. -/
theorem mapping_same_iff {entries : List (String × Value)} {other : Value} :
    (mapping entries).same other = true ↔
      ∃ others, other = mapping others ∧ entries.length = others.length ∧
        ∀ entry ∈ entries, ∃ found, Entries.get? others entry.1 = some found ∧
          entry.2.same found = true := by
  cases other <;> simp [same, sameEntries_iff]

/-- What is equal to an entity is an entity with an equal name and equal arguments. -/
theorem entity_same_iff {name arguments other : Value} :
    (entity name arguments).same other = true ↔
      ∃ name' arguments', other = entity name' arguments' ∧ name.same name' = true ∧
        arguments.same arguments' = true := by
  cases other <;> simp [same]

/-- What is equal to a chain is a chain of equal links. -/
theorem chain_same_iff {links : List (Value × Value)} {other : Value} :
    (chain links).same other = true ↔
      ∃ others, other = chain others ∧
        List.Forall₂ (fun a b => a.1.same b.1 = true ∧ a.2.same b.2 = true) links others := by
  cases other <;> simp [same, sameLinks_iff]


section List

variable {α : Type} {R : α → α → Prop} {as bs cs : List α}

/-- Lists are related in the other order if related members of them are. -/
theorem forall₂_symm_of_mem (hsymm : ∀ a ∈ as, ∀ b ∈ bs, R a b → R b a)
    (h : List.Forall₂ R as bs) : List.Forall₂ R bs as := by
  induction h with
  | nil => exact .nil
  | cons hab _ ih =>
    refine .cons (hsymm _ List.mem_cons_self _ List.mem_cons_self hab) (ih fun a ha b hb => ?_)
    exact hsymm a (List.mem_cons_of_mem _ ha) b (List.mem_cons_of_mem _ hb)

/-- Two steps of a relation along lists make one if two steps from each of the first members do. -/
theorem forall₂_trans_of_mem
    (htrans : ∀ a ∈ as, ∀ b c, R a b → R b c → R a c) (h₁ : List.Forall₂ R as bs)
    (h₂ : List.Forall₂ R bs cs) : List.Forall₂ R as cs := by
  induction h₁ generalizing cs with
  | nil => exact h₂
  | cons hab hrest ih =>
    obtain ⟨c, cs, hbc, hcs, rfl⟩ := List.forall₂_cons_left_iff.1 h₂
    exact .cons (htrans _ List.mem_cons_self _ _ hab hbc)
      (ih (fun a ha => htrans a (List.mem_cons_of_mem _ ha)) hcs)

end List

/-- Equality of values is transitive. -/
theorem same_trans {a b c : Value} (hab : a.same b = true) (hbc : b.same c = true) :
    a.same c = true := by
  induction a using induction_inside generalizing b c with
  | hscalar s =>
    cases b <;> simp [same] at hab
    cases c <;> simp [same] at hbc ⊢
    exact Scalar.same_trans hab hbc
  | hsequence items ih =>
    obtain ⟨items', rfl, hfirst⟩ := sequence_same_iff.1 hab
    obtain ⟨items'', rfl, hsecond⟩ := sequence_same_iff.1 hbc
    exact sequence_same_iff.2
      ⟨_, rfl, forall₂_trans_of_mem (fun a ha _ _ => ih a ha) hfirst hsecond⟩
  | hmapping entries ih =>
    obtain ⟨entries', rfl, hlength, hab⟩ := mapping_same_iff.1 hab
    obtain ⟨entries'', rfl, hlength', hbc⟩ := mapping_same_iff.1 hbc
    refine mapping_same_iff.2 ⟨_, rfl, hlength.trans hlength', fun entry hentry => ?_⟩
    obtain ⟨found, hget, hsame⟩ := hab entry hentry
    obtain ⟨found', hget', hsame'⟩ := hbc _ (Entries.mem_of_get? hget)
    exact ⟨found', hget', ih entry hentry hsame hsame'⟩
  | hentity name arguments ihname iharguments =>
    obtain ⟨name', arguments', rfl, hname, harguments⟩ := entity_same_iff.1 hab
    obtain ⟨name'', arguments'', rfl, hname', harguments'⟩ := entity_same_iff.1 hbc
    exact entity_same_iff.2 ⟨_, _, rfl, ihname hname hname', iharguments harguments harguments'⟩
  | hchain links ih =>
    obtain ⟨links', rfl, hfirst⟩ := chain_same_iff.1 hab
    obtain ⟨links'', rfl, hsecond⟩ := chain_same_iff.1 hbc
    refine chain_same_iff.2 ⟨_, rfl, forall₂_trans_of_mem (fun a ha b c h h' => ?_) hfirst hsecond⟩
    exact ⟨(ih a ha).1 h.1 h'.1, (ih a ha).2 h.2 h'.2⟩
  | hdateTime d =>
    cases b <;> simp [same] at hab
    exact hab ▸ hbc

/-- Entries that are all found among as many others have all keys of those. -/
theorem mem_keys_of_sameEntries {entries others : List (String × Value)}
    (hnodup : (Entries.keys entries).Nodup) (hlength : entries.length = others.length)
    (h : ∀ entry ∈ entries, ∃ found, Entries.get? others entry.1 = some found ∧
      entry.2.same found = true) {key : String} (hkey : key ∈ Entries.keys others) :
    key ∈ Entries.keys entries := by
  have hsubset : Entries.keys entries ⊆ Entries.keys others := by
    intro name hname
    obtain ⟨entry, hentry, rfl⟩ := List.mem_map.1 hname
    obtain ⟨found, hget, -⟩ := h entry hentry
    exact List.mem_map.2 ⟨_, Entries.mem_of_get? hget, rfl⟩
  have hperm := (List.subperm_of_subset hnodup hsubset).perm_of_length_le
    (by simpa [Entries.keys] using Nat.le_of_eq hlength.symm)
  exact hperm.mem_iff.2 hkey

/-- Equality is symmetric on values that repeat no keys. -/
theorem same_symm {a b : Value} (ha : a.Distinct) (hb : b.Distinct) (h : a.same b = true) :
    b.same a = true := by
  induction a using induction_inside generalizing b with
  | hscalar s =>
    cases b <;> simp [same] at h ⊢
    exact (Scalar.same_comm _ _).trans h
  | hsequence items ih =>
    obtain ⟨items', rfl, hitems⟩ := sequence_same_iff.1 h
    refine sequence_same_iff.2
      ⟨_, rfl, forall₂_symm_of_mem (fun item hitem other hother => ?_) hitems⟩
    exact ih item hitem (distinct_of_mem ha hitem) (distinct_of_mem hb hother)
  | hmapping entries ih =>
    obtain ⟨entries', rfl, hlength, hentries⟩ := mapping_same_iff.1 h
    refine mapping_same_iff.2 ⟨_, rfl, hlength.symm, fun entry' hentry' => ?_⟩
    have hkey := mem_keys_of_sameEntries ha.1 hlength hentries (List.mem_map_of_mem hentry')
    obtain ⟨entry, hentry, hname⟩ := List.mem_map.1 hkey
    obtain ⟨found, hget, hsame⟩ := hentries entry hentry
    -- The second mapping has one value under the key, so what is found there is that of the entry.
    have hfound : found = entry'.2 := by
      have hget' := (Entries.get?_eq_some_iff hb.1).2 hentry'
      rw [← hname, hget] at hget'
      exact Option.some.inj hget'
    refine ⟨entry.2, ?_, ?_⟩
    · rw [← hname]
      exact (Entries.get?_eq_some_iff ha.1).2 hentry
    · exact ih entry hentry (distinct_of_mem_entries ha.2 hentry)
        (distinct_of_mem_entries hb.2 hentry') (hfound ▸ hsame)
  | hentity name arguments ihname iharguments =>
    obtain ⟨name', arguments', rfl, hname, harguments⟩ := entity_same_iff.1 h
    exact entity_same_iff.2 ⟨_, _, rfl, ihname ha.1 hb.1 hname,
      iharguments ha.2 hb.2 harguments⟩
  | hchain links ih =>
    obtain ⟨links', rfl, hlinks⟩ := chain_same_iff.1 h
    refine chain_same_iff.2
      ⟨_, rfl, forall₂_symm_of_mem (fun link hlink other hother hsame => ?_) hlinks⟩
    have hdistinct := distinct_of_mem_links ha hlink
    have hdistinct' := distinct_of_mem_links hb hother
    exact ⟨(ih link hlink).1 hdistinct.1 hdistinct'.1 hsame.1,
      (ih link hlink).2 hdistinct.2 hdistinct'.2 hsame.2⟩
  | hdateTime d =>
    cases b <;> simp [same] at h ⊢
    exact h.symm

/-- The value is no NaN. -/
def NotNaN : Value → Prop
  | scalar (.float value) => value.isNaN = false
  | _ => True

/-- A scalar equals itself exactly if it is no NaN. -/
theorem scalar_same_self_iff (s : Scalar) : s.same s = true ↔ NotNaN (scalar s) := by
  cases s with
  | float x => rw [Scalar.same, Binary64.same_self, NotNaN, Bool.not_eq_true']
  | _ => simp [Scalar.same, NotNaN]

/-- A sequence equals itself exactly if its items do. -/
theorem sequence_same_self_iff {items : List Value} :
    (sequence items).same (sequence items) = true ↔ ∀ item ∈ items, item.same item = true := by
  rw [same, sameItems_iff, List.forall₂_same]

/-- A mapping that repeats no key equals itself exactly if its values do. -/
theorem mapping_same_self_iff {entries : List (String × Value)}
    (h : (Entries.keys entries).Nodup) :
    (mapping entries).same (mapping entries) = true ↔
      ∀ entry ∈ entries, entry.2.same entry.2 = true := by
  rw [same, beq_self_eq_true, Bool.true_and, sameEntries_iff]
  exact forall₂_congr fun _ hentry => Entries.exists_get?_iff h hentry

/-- A chain equals itself exactly if its names and arguments do. -/
theorem chain_same_self_iff {links : List (Value × Value)} :
    (chain links).same (chain links) = true ↔
      ∀ link ∈ links, link.1.same link.1 = true ∧ link.2.same link.2 = true := by
  rw [same, sameLinks_iff, List.forall₂_same]

/-- A value equals itself exactly if none of its parts is a NaN. -/
theorem same_self_iff {value : Value} (h : value.Distinct) :
    value.same value = true ↔ value.Throughout NotNaN := by
  induction value using induction_inside with
  | hscalar s =>
    rw [same, scalar_same_self_iff]
    exact ⟨.scalar, Throughout.here⟩
  | hsequence items ih =>
    rw [sequence_same_self_iff]
    constructor
    · intro hsame
      exact .sequence trivial fun item hitem =>
        (ih item hitem (distinct_of_mem h hitem)).1 (hsame item hitem)
    · intro hnan item hitem
      exact (ih item hitem (distinct_of_mem h hitem)).2 (hnan.part (.item hitem .self))
  | hmapping entries ih =>
    rw [mapping_same_self_iff h.1]
    constructor
    · intro hsame
      exact .mapping trivial fun entry hentry =>
        (ih entry hentry (distinct_of_mem_entries h.2 hentry)).1 (hsame entry hentry)
    · intro hnan entry hentry
      exact (ih entry hentry (distinct_of_mem_entries h.2 hentry)).2
        (hnan.part (.entry hentry .self))
  | hentity name arguments ihname iharguments =>
    rw [same, Bool.and_eq_true, ihname h.1, iharguments h.2]
    constructor
    · intro hnan
      exact .entity trivial hnan.1 hnan.2
    · intro hnan
      exact ⟨hnan.part (.name .self), hnan.part (.arguments .self)⟩
  | hchain links ih =>
    rw [chain_same_self_iff]
    constructor
    · intro hsame
      refine .chain trivial fun link hlink => ?_
      have hdistinct := distinct_of_mem_links h hlink
      exact ⟨((ih link hlink).1 hdistinct.1).1 (hsame link hlink).1,
        ((ih link hlink).2 hdistinct.2).1 (hsame link hlink).2⟩
    · intro hnan link hlink
      have hdistinct := distinct_of_mem_links h hlink
      exact ⟨((ih link hlink).1 hdistinct.1).2 (hnan.part (.linkName hlink .self)),
        ((ih link hlink).2 hdistinct.2).2 (hnan.part (.linkArguments hlink .self))⟩
  | hdateTime d =>
    rw [same, beq_self_eq_true]
    exact iff_of_true rfl (.dateTime trivial)

end Value

end NeonAudit
