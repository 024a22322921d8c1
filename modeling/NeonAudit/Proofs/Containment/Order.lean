import NeonAudit.Audit.Check
import NeonAudit.Proofs.Containment
import NeonAudit.Proofs.Equality

/-!
# Containment as an order

A tree that contains a fragment contains all that the fragment contains: under a key of a mapping
this is the same question again, and at any other value containment is equality. A value contains
itself unless a NaN is in it, which differs even from itself. So a tree that contains another one
has all its paths and all its fragments, and breaks whatever rules the other one breaks.
-/

namespace NeonAudit

namespace Value

/-- A value contains itself exactly if none of its parts is a NaN. -/
theorem contains_self_iff {value : Value} (h : value.Distinct) :
    value.contains value = true ↔ value.Throughout NotNaN := by
  induction value using induction_inside with
  | hmapping entries ih =>
    rw [contains_mapping_iff]
    constructor
    · intro hself
      refine .mapping trivial fun entry hentry => ?_
      have hvalue := (Entries.exists_get?_iff h.1 hentry).1 (hself entry hentry)
      exact (ih entry hentry (distinct_of_mem_entries h.2 hentry)).1 hvalue
    · intro hnan entry hentry
      refine (Entries.exists_get?_iff h.1 hentry).2 ?_
      exact (ih entry hentry (distinct_of_mem_entries h.2 hentry)).2
        (hnan.part (.entry hentry .self))
  | _ => rw [contains_eq_same (by simp), same_self_iff h]

/-- What is equal to a value that is no mapping is no mapping. -/
theorem ne_mapping_of_same {value other : Value} (h : value.same other = true)
    (hvalue : ∀ entries, value ≠ mapping entries) : ∀ entries, other ≠ mapping entries := by
  rintro entries rfl
  cases value with
  | mapping wanted => exact hvalue wanted rfl
  | _ => simp [same] at h

/-- Where a tree has a value under a key, a tree that contains it has what contains the value. -/
theorem exists_get?_of_contains {tree larger : Value} (h : larger.contains tree = true)
    {key : String} {child : Value} (hget : tree.get? key = some child) :
    ∃ other, larger.get? key = some other ∧ other.contains child = true := by
  cases tree with
  | mapping entries => exact contains_mapping_iff.1 h _ (Entries.mem_of_get? hget)
  | _ => contradiction

/-- What is contained in a fragment of a tree is contained in the tree. -/
theorem contains_trans {first second third : Value} (h₁ : second.contains first = true)
    (h₂ : third.contains second = true) : third.contains first = true := by
  induction first using induction_inside generalizing second third with
  | hmapping wanted ih =>
    refine contains_mapping_iff.2 fun entry hentry => ?_
    obtain ⟨found, hget, hfound⟩ := contains_mapping_iff.1 h₁ entry hentry
    obtain ⟨other, hget', hother⟩ := exists_get?_of_contains h₂ hget
    exact ⟨other, hget', ih entry hentry hfound hother⟩
  | _ =>
    rw [contains_eq_same (by simp)] at h₁ ⊢
    rw [contains_eq_same (ne_mapping_of_same h₁ (by simp))] at h₂
    exact same_trans h₁ h₂

/-- Where a path leads to a value in a tree, it leads to what contains the value in a tree that
contains the first one. -/
theorem exists_getPath?_of_contains {tree larger : Value} (h : larger.contains tree = true)
    {path : List String} {found : Value} (hpath : tree.getPath? path = some found) :
    ∃ other, larger.getPath? path = some other ∧ other.contains found = true :=
  exists_getPath?_of_forall_get? (R := fun a b => b.contains a = true)
    (fun hcontains _ _ hget => exists_get?_of_contains hcontains hget) h hpath

end Value

/-- Containment is reflexive on the values without NaNs, and on no others, and it is transitive. Of
two trees of which one contains the other, it breaks all rules that the other one breaks, each as
often as the rule set has it. -/
theorem RuleSet.sublist_check_of_contains :
    (∀ value : Value, value.Distinct →
      (value.contains value = true ↔ value.Throughout Value.NotNaN)) ∧
    (∀ first second third : Value, second.contains first = true →
      third.contains second = true → third.contains first = true) ∧
    ∀ (rules : RuleSet) (file : String) (tree larger : Value), larger.contains tree = true →
      (rules.check file tree).keys.Sublist (rules.check file larger).keys ∧
        (rules.check file tree).values.Sublist (rules.check file larger).values := by
  refine ⟨fun _ => Value.contains_self_iff, fun _ _ _ => Value.contains_trans, ?_⟩
  intro rules file tree larger h
  have hkey (path : KeyPath) (hbroken : path.isBroken tree = true) :
      path.isBroken larger = true := by
    obtain ⟨found, hfound⟩ := Option.isSome_iff_exists.1 hbroken
    obtain ⟨other, hother, -⟩ := Value.exists_getPath?_of_contains h hfound
    exact Option.isSome_iff_exists.2 ⟨other, hother⟩
  have hvalue (rule : ValueRule) (hbroken : rule.isBroken tree = true) :
      rule.isBroken larger = true :=
    Value.contains_trans hbroken h
  exact ⟨(List.monotone_filter_right _ hkey).map _, (List.monotone_filter_right _ hvalue).map _⟩

/-- A tree that contains itself and is contained in one with more settings, where the empty mapping
has become a number: the larger tree breaks three rules, among them the two that the smaller one
breaks. -/
theorem RuleSet.sublist_check_of_contains_nested :
    let tree : Value :=
      .mapping [("a", .mapping [("x", .scalar (.float ⟨0⟩)), ("y", .mapping [])])]
    let larger : Value := .mapping [("b", .null),
      ("a", .mapping [("y", .scalar (.int 7)), ("x", .scalar (.float ⟨0x8000000000000000⟩))])]
    tree.contains tree = true ∧ larger.contains (.mapping [("a", .mapping [])]) = true ∧
      ∃ rules, RuleSet.ofSpecs ["b", "a:y"] ["a:x:0.0"] = .ok rules ∧
        (rules.check "site.neon" tree).keys.Sublist ["b", "a:y"] ∧
          (rules.check "site.neon" tree).values.Sublist ["a:x:0.0"] := by
  intro tree larger
  obtain ⟨hself, htrans, hcheck⟩ := RuleSet.sublist_check_of_contains
  have hdistinct : tree.Distinct :=
    ⟨by decide, ⟨by decide, trivial, ⟨by decide, trivial⟩, trivial⟩, trivial⟩
  have hnan : tree.Throughout Value.NotNaN := by
    refine .mapping trivial fun entry hentry => ?_
    obtain rfl := List.mem_singleton.1 hentry
    refine .mapping trivial fun entry hentry => ?_
    rcases List.mem_pair.1 hentry with rfl | rfl
    · exact .scalar (by decide : Binary64.isNaN ⟨0⟩ = false)
    · exact .mapping trivial fun _ hnil => absurd hnil List.not_mem_nil
  have hlarger : larger.contains tree = true := by decide +kernel
  obtain ⟨rules, hrules, hkeys, hvalues⟩ : ∃ rules,
      RuleSet.ofSpecs ["b", "a:y"] ["a:x:0.0"] = .ok rules ∧
        (rules.check "site.neon" larger).keys = ["b", "a:y"] ∧
          (rules.check "site.neon" larger).values = ["a:x:0.0"] :=
    ⟨_, rfl, by decide +kernel, by decide +kernel⟩
  have hbroken := hcheck rules "site.neon" tree larger hlarger
  rw [hkeys, hvalues] at hbroken
  exact ⟨(hself tree hdistinct).2 hnan, htrans _ tree larger (by decide +kernel) hlarger,
    rules, hrules, hbroken⟩

end NeonAudit
