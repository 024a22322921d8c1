import Mathlib.Logic.Relation
import NeonAudit.Proofs.Equality

/-!
# Equality and the order of entries

Two mappings are equal exactly if they have the same keys, and equal values under each of them, so
the order of their entries does not matter. The same holds inside a value: whatever mappings in it
are reordered, at any depth, the value stays equal to itself. One reordering is a step, which is
followed down to the mapping that it is about, and several are a run of steps; equality is carried
along the run because it is transitive. A NaN is excluded because it differs even from itself.
-/

namespace NeonAudit.Value

/-- Mappings are equal exactly if they have the same keys and equal values under each key. -/
theorem mapping_same_mapping_iff {as bs : List (String × Value)} (has : (Entries.keys as).Nodup)
    (hbs : (Entries.keys bs).Nodup) :
    (mapping as).same (mapping bs) = true ↔
      (∀ key, key ∈ Entries.keys as ↔ key ∈ Entries.keys bs) ∧
        ∀ key, Option.Rel (fun a b => a.same b = true) (Entries.get? as key)
          (Entries.get? bs key) := by
  constructor
  · intro h
    obtain ⟨others, hothers, hlength, hentries⟩ := mapping_same_iff.1 h
    obtain rfl := mapping.inj hothers
    have hkeys (key : String) : key ∈ Entries.keys as ↔ key ∈ Entries.keys bs := by
      refine ⟨fun hkey => ?_, mem_keys_of_sameEntries has hlength hentries⟩
      obtain ⟨entry, hentry, rfl⟩ := List.mem_map.1 hkey
      obtain ⟨found, hget, -⟩ := hentries entry hentry
      exact List.mem_map.2 ⟨_, Entries.mem_of_get? hget, rfl⟩
    refine ⟨hkeys, fun key => ?_⟩
    cases hget : Entries.get? as key with
    | some value =>
      obtain ⟨found, hfound, hsame⟩ := hentries _ (Entries.mem_of_get? hget)
      rw [hfound]
      exact .some hsame
    | none =>
      have hnot : key ∉ Entries.keys bs := by
        rw [← hkeys, ← Entries.contains_iff, Entries.contains, hget]
        exact Bool.false_ne_true
      rw [← Entries.contains_iff, Entries.contains, Option.not_isSome_iff_eq_none] at hnot
      rw [hnot]
      exact .none
  · rintro ⟨hkeys, hvalues⟩
    have hperm := (List.perm_ext_iff_of_nodup has hbs).2 hkeys
    refine mapping_same_iff.2 ⟨bs, rfl, by simpa [Entries.keys] using hperm.length_eq, ?_⟩
    intro entry hentry
    have hvalue := hvalues entry.1
    rw [(Entries.get?_eq_some_iff has).2 hentry] at hvalue
    cases hget : Entries.get? bs entry.1 with
    | none =>
      rw [hget] at hvalue
      cases hvalue
    | some found =>
      rw [hget] at hvalue
      cases hvalue with
      | some hsame => exact ⟨found, rfl, hsame⟩

/-- Mappings may be compared by looking up the keys of either in the other, with the values compared in
either order. -/
theorem mapping_same_eq_all {as bs : List (String × Value)} (has : (mapping as).Distinct)
    (hbs : (mapping bs).Distinct) :
    (mapping as).same (mapping bs) = (as.length == bs.length &&
      as.all fun entry => (Entries.get? bs entry.1).any fun found => found.same entry.2) := by
  rw [same, Bool.eq_iff_iff, Bool.and_eq_true, Bool.and_eq_true, sameEntries_iff, List.all_eq_true]
  refine and_congr_right fun _ => forall₂_congr fun entry hentry => ?_
  rw [Option.any_eq_true]
  refine exists_congr fun found => and_congr_right fun hget => ?_
  have hentry' : entry.2.Distinct := distinctEntries_iff.1 has.2 entry hentry
  have hfound : found.Distinct := distinctEntries_iff.1 hbs.2 _ (Entries.mem_of_get? hget)
  exact ⟨same_symm hentry' hfound, same_symm hfound hentry'⟩

/-- The entries of one mapping in a value, which may be the value itself, are put into another
order. -/
inductive Reorders : Value → Value → Prop
  | mapping {entries entries'} : entries.Perm entries' →
      Reorders (mapping entries) (mapping entries')
  | item {before after item item'} : Reorders item item' →
      Reorders (sequence (before ++ item :: after)) (sequence (before ++ item' :: after))
  | entry {before after key value value'} : Reorders value value' →
      Reorders (Value.mapping (before ++ (key, value) :: after))
        (Value.mapping (before ++ (key, value') :: after))
  | name {name name' arguments} : Reorders name name' →
      Reorders (entity name arguments) (entity name' arguments)
  | arguments {name arguments arguments'} : Reorders arguments arguments' →
      Reorders (entity name arguments) (entity name arguments')
  | linkName {before after name name' arguments} : Reorders name name' →
      Reorders (chain (before ++ (name, arguments) :: after))
        (chain (before ++ (name', arguments) :: after))
  | linkArguments {before after name arguments arguments'} : Reorders arguments arguments' →
      Reorders (chain (before ++ (name, arguments) :: after))
        (chain (before ++ (name, arguments') :: after))

/-- What holds of all members of a list holds of them after one has been replaced, if it holds of the
new one. -/
theorem forall_mem_replace {α : Type} {P : α → Prop} {before after : List α} {a b : α}
    (h : ∀ x ∈ before ++ a :: after, P x) (hb : P a → P b) : ∀ x ∈ before ++ b :: after, P x := by
  rw [List.forall_mem_append, List.forall_mem_cons] at h ⊢
  exact ⟨h.1, hb h.2.1, h.2.2⟩

/-- A list of members that are related to themselves is related to the list with one member replaced
by a related one. -/
theorem forall₂_replace {α : Type} {R : α → α → Prop} {before after : List α} {a b : α}
    (hself : ∀ x ∈ before ++ a :: after, R x x) (hab : R a a → R a b) :
    List.Forall₂ R (before ++ a :: after) (before ++ b :: after) := by
  rw [List.forall_mem_append, List.forall_mem_cons] at hself
  obtain ⟨hbefore, ha, hafter⟩ := hself
  exact List.rel_append (List.forall₂_same.2 hbefore) (.cons (hab ha) (List.forall₂_same.2 hafter))

namespace Reorders

variable {a b : Value}

/-- A value that repeats no keys repeats none after it has been reordered. -/
theorem distinct (h : Reorders a b) (ha : a.Distinct) : b.Distinct := by
  induction h with
  | mapping hperm =>
    refine ⟨(hperm.map Prod.fst).nodup_iff.1 ha.1, distinctEntries_iff.2 fun entry hentry => ?_⟩
    exact distinctEntries_iff.1 ha.2 entry (hperm.mem_iff.2 hentry)
  | item _ ih => exact distinctItems_iff.2 (forall_mem_replace (distinctItems_iff.1 ha) ih)
  | entry _ ih =>
    have hkeys := ha.1
    rw [Entries.keys, List.map_append, List.map_cons] at hkeys
    refine ⟨?_, distinctEntries_iff.2 (forall_mem_replace (distinctEntries_iff.1 ha.2) ih)⟩
    rwa [Entries.keys, List.map_append, List.map_cons]
  | name _ ih => exact ⟨ih ha.1, ha.2⟩
  | arguments _ ih => exact ⟨ha.1, ih ha.2⟩
  | linkName _ ih =>
    refine distinctLinks_iff.2 (forall_mem_replace (distinctLinks_iff.1 ha) fun hlink => ?_)
    exact ⟨ih hlink.1, hlink.2⟩
  | linkArguments _ ih =>
    refine distinctLinks_iff.2 (forall_mem_replace (distinctLinks_iff.1 ha) fun hlink => ?_)
    exact ⟨hlink.1, ih hlink.2⟩

/-- A value that is equal to itself is equal to what it becomes when it is reordered. -/
theorem same (h : Reorders a b) (ha : a.Distinct) (hself : a.same a = true) :
    a.same b = true := by
  induction h with
  | @mapping entries entries' hperm =>
    have hkeys : (Entries.keys entries').Nodup := (hperm.map Prod.fst).nodup_iff.1 ha.1
    refine mapping_same_iff.2 ⟨_, rfl, hperm.length_eq, fun entry hentry => ?_⟩
    rw [Entries.exists_get?_iff hkeys (hperm.mem_iff.1 hentry)]
    exact (mapping_same_self_iff ha.1).1 hself entry hentry
  | @item before after item item' _ ih =>
    have hitem : item.Distinct := distinctItems_iff.1 ha item (by simp)
    exact sequence_same_iff.2
      ⟨_, rfl, forall₂_replace (sequence_same_self_iff.1 hself) (ih hitem)⟩
  | @entry before after key value value' hstep ih =>
    have hvalue : value.Distinct := distinctEntries_iff.1 ha.2 (key, value) (by simp)
    have hvalues := (mapping_same_self_iff ha.1).1 hself
    have hkeys := ((Reorders.entry hstep).distinct ha).1
    refine mapping_same_iff.2 ⟨_, rfl, by simp, ?_⟩
    rw [List.forall_mem_append, List.forall_mem_cons] at hvalues ⊢
    obtain ⟨hbefore, hmiddle, hafter⟩ := hvalues
    -- The new mapping has each of the entries that stay, and the new value in place of the old one.
    refine ⟨fun entry hentry => ?_, ?_, fun entry hentry => ?_⟩
    · rw [Entries.exists_get?_iff hkeys (List.mem_append_left _ hentry)]
      exact hbefore entry hentry
    · have hnew : (key, value') ∈ before ++ (key, value') :: after := by simp
      exact (Entries.exists_get?_iff hkeys hnew).2 (ih hvalue hmiddle)
    · rw [Entries.exists_get?_iff hkeys (by simp [hentry])]
      exact hafter entry hentry
  | name _ ih =>
    rw [Value.same, Bool.and_eq_true] at hself ⊢
    exact ⟨ih ha.1 hself.1, hself.2⟩
  | arguments _ ih =>
    rw [Value.same, Bool.and_eq_true] at hself ⊢
    exact ⟨hself.1, ih ha.2 hself.2⟩
  | @linkName before after name name' arguments _ ih =>
    have hlink := distinctLinks_iff.1 ha (name, arguments) (by simp)
    refine chain_same_iff.2 ⟨_, rfl, forall₂_replace (chain_same_self_iff.1 hself) fun hpair => ?_⟩
    exact ⟨ih hlink.1 hpair.1, hpair.2⟩
  | @linkArguments before after name arguments arguments' _ ih =>
    have hlink := distinctLinks_iff.1 ha (name, arguments) (by simp)
    refine chain_same_iff.2 ⟨_, rfl, forall₂_replace (chain_same_self_iff.1 hself) fun hpair => ?_⟩
    exact ⟨hpair.1, ih hlink.2 hpair.2⟩

end Reorders

/-- A value that is equal to itself is equal to what it becomes when mappings in it are reordered one
after another, and that repeats no keys either. -/
theorem same_of_reflTransGen_reorders {a b : Value} (ha : a.Distinct) (hself : a.same a = true)
    (h : Relation.ReflTransGen Reorders a b) : a.same b = true ∧ b.Distinct := by
  induction h with
  | refl => exact ⟨hself, ha⟩
  | @tail b c _ hstep ih =>
    obtain ⟨hsame, hb⟩ := ih
    have hself' : b.same b = true := same_trans (same_symm ha hb hsame) hsame
    exact ⟨same_trans hsame (hstep.same hb hself'), hstep.distinct hb⟩

/-- Equality is symmetric and transitive, and a value is equal to itself exactly if there is no NaN in
it. Mappings are equal exactly if they have the same keys and equal values under each key, so a value
without a NaN is equal to what it becomes when mappings in it are reordered. It does not matter either
in which order the values of two mappings are compared. -/
theorem same_lawful :
    (∀ a b : Value, a.Distinct → b.Distinct → a.same b = b.same a) ∧
    (∀ a b c : Value, a.same b = true → b.same c = true → a.same c = true) ∧
    (∀ a : Value, a.Distinct → (a.same a = true ↔ a.Throughout NotNaN)) ∧
    (∀ as bs : List (String × Value), (Entries.keys as).Nodup → (Entries.keys bs).Nodup →
      ((mapping as).same (mapping bs) = true ↔
        (∀ key, key ∈ Entries.keys as ↔ key ∈ Entries.keys bs) ∧
          ∀ key, Option.Rel (fun a b => a.same b = true) (Entries.get? as key)
            (Entries.get? bs key))) ∧
    (∀ a b : Value, a.Distinct → a.Throughout NotNaN → Relation.ReflTransGen Reorders a b →
      a.same b = true ∧ b.Distinct) ∧
    ∀ as bs : List (String × Value), (mapping as).Distinct → (mapping bs).Distinct →
      (mapping as).same (mapping bs) = (as.length == bs.length &&
        as.all fun entry => (Entries.get? bs entry.1).any fun found => found.same entry.2) := by
  refine ⟨?_, fun _ _ _ => same_trans, fun _ => same_self_iff,
    fun _ _ => mapping_same_mapping_iff, ?_, fun _ _ => mapping_same_eq_all⟩
  · intro a b ha hb
    exact Bool.eq_iff_iff.2 ⟨same_symm ha hb, same_symm hb ha⟩
  · intro a b ha hnan h
    exact same_of_reflTransGen_reorders ha ((same_self_iff ha).2 hnan) h

/-- A tree stays equal to itself when a mapping in a list is reordered and then the root, also with the
other zero in it, and so it has an equal value under each key. -/
theorem same_lawful_nested :
    let first : List (String × Value) := [
      ("a", .sequence [.mapping [("x", .scalar (.float ⟨0⟩)), ("y", .null)]]), ("b", .null)]
    let second : List (String × Value) := [
      ("b", .null), ("a", .sequence [.mapping [("y", .null), ("x", .scalar (.float ⟨0⟩))]])]
    let third : List (String × Value) := [("b", .null),
      ("a", .sequence [.mapping [("y", .null), ("x", .scalar (.float ⟨0x8000000000000000⟩))]])]
    (mapping first).same (mapping second) = true ∧ (mapping third).same (mapping first) = true ∧
      (∀ key, Option.Rel (fun a b => a.same b = true) (Entries.get? third key)
        (Entries.get? first key)) ∧
      third.all fun entry => (Entries.get? first entry.1).any fun found => found.same entry.2 := by
  intro first second third
  obtain ⟨hsymm, htrans, hself, hkeys, hreorders, hall⟩ := same_lawful
  have hfirst : (mapping first).Distinct := by
    simp [first, Distinct, DistinctEntries, DistinctItems, Entries.keys, Value.null]
  have hthird : (mapping third).Distinct := by
    simp [third, Distinct, DistinctEntries, DistinctItems, Entries.keys, Value.null]
  have hnan : (mapping first).Throughout NotNaN :=
    (hself _ hfirst).1 (by decide +kernel)
  have hinner : Reorders (mapping first) (mapping [
      ("a", .sequence [.mapping [("y", .null), ("x", .scalar (.float ⟨0⟩))]]), ("b", .null)]) :=
    @Reorders.entry [] _ "a" _ _ (@Reorders.item [] [] _ _ (.mapping (.swap _ _ _)))
  have hrun : Relation.ReflTransGen Reorders (mapping first) (mapping second) :=
    .tail (.single hinner) (.mapping (.swap _ _ _))
  have hsecond := (hreorders _ _ hfirst hnan hrun).1
  have hthird' : (mapping first).same (mapping third) = true :=
    htrans _ _ _ hsecond (by decide +kernel)
  have hback : (mapping third).same (mapping first) = true :=
    (hsymm _ _ hthird hfirst).trans hthird'
  refine ⟨hsecond, hback, ((hkeys third first hthird.1 hfirst.1).1 hback).2, ?_⟩
  have hboth := hall third first hthird hfirst
  rw [hback] at hboth
  exact (Bool.and_eq_true_iff.1 hboth.symm).2

end NeonAudit.Value
