import NeonAudit.Audit.Check
import NeonAudit.Proofs.Containment
import NeonAudit.Proofs.Equality

/-!
# Verdicts on equal trees

Equality of trees ignores the order of the keys of their mappings. Whatever a check asks of a tree
is asked of the values under its keys: a path leads to equal values in equal trees, and a fragment
that is contained in a tree is contained in an equal one. So equal trees break the same rules.
-/

namespace NeonAudit

namespace Value

variable {first second : Value}

/-- Where a tree has a value under a key, an equal tree has an equal value. -/
theorem exists_get?_of_same (h : first.same second = true) {key : String} {child : Value}
    (hget : first.get? key = some child) :
    ∃ other, second.get? key = some other ∧ child.same other = true := by
  cases first with
  | mapping entries =>
    obtain ⟨others, rfl, -, hentries⟩ := mapping_same_iff.1 h
    exact hentries _ (Entries.mem_of_get? hget)
  | _ => contradiction

/-- Where a path leads to a value in a tree, it leads to an equal value in an equal tree. -/
theorem exists_getPath?_of_same (h : first.same second = true) {path : List String}
    {found : Value} (hpath : first.getPath? path = some found) :
    ∃ other, second.getPath? path = some other ∧ found.same other = true :=
  exists_getPath?_of_forall_get? (R := fun a b => a.same b = true)
    (fun hsame _ _ hget => exists_get?_of_same hsame hget) h hpath

/-- What is contained in a tree is contained in an equal tree. -/
theorem contains_of_same (h : first.same second = true) {fragment : Value}
    (hcontains : first.contains fragment = true) : second.contains fragment = true := by
  induction fragment using induction_inside generalizing first second with
  | hmapping wanted ih =>
    refine contains_mapping_iff.2 fun entry hentry => ?_
    obtain ⟨found, hget, hfound⟩ := contains_mapping_iff.1 hcontains entry hentry
    obtain ⟨other, hget', hsame⟩ := exists_get?_of_same h hget
    exact ⟨other, hget', ih entry hentry hsame hfound⟩
  | _ =>
    rw [contains_eq_same (by simp)] at hcontains ⊢
    exact same_trans hcontains h


/-- A path leads to a value in both of two equal trees or in neither. -/
theorem hasPath_eq_of_same (hfirst : first.Distinct) (hsecond : second.Distinct)
    (h : first.same second = true) (path : List String) :
    first.hasPath path = second.hasPath path := by
  have himp {tree other : Value} (h : tree.same other = true) (hpath : tree.hasPath path = true) :
      other.hasPath path = true := by
    obtain ⟨found, hfound⟩ := Option.isSome_iff_exists.1 hpath
    obtain ⟨found', hfound', -⟩ := exists_getPath?_of_same h hfound
    exact Option.isSome_iff_exists.2 ⟨found', hfound'⟩
  exact Bool.eq_iff_iff.2 ⟨himp h, himp (same_symm hfirst hsecond h)⟩

/-- A fragment is contained in both of two equal trees or in neither. -/
theorem contains_eq_of_same (hfirst : first.Distinct) (hsecond : second.Distinct)
    (h : first.same second = true) (fragment : Value) :
    first.contains fragment = second.contains fragment :=
  Bool.eq_iff_iff.2 ⟨contains_of_same h, contains_of_same (same_symm hfirst hsecond h)⟩

end Value

/-- Equal trees break the same rules of every rule set, and contain the same fragments, also such as
no rule has. -/
theorem RuleSet.check_eq_of_same {first second : Value} (hfirst : first.Distinct)
    (hsecond : second.Distinct) (h : first.same second = true) (rules : RuleSet) (file : String) :
    rules.check file first = rules.check file second ∧
      ∀ fragment, first.contains fragment = second.contains fragment := by
  have hcontains := Value.contains_eq_of_same hfirst hsecond h
  have hkey (path : KeyPath) : path.isBroken first = path.isBroken second :=
    Value.hasPath_eq_of_same hfirst hsecond h path.segments
  have hvalue (rule : ValueRule) : rule.isBroken first = rule.isBroken second :=
    hcontains rule.fragment
  refine ⟨?_, hcontains⟩
  simp only [check, hkey, hvalue]

/-- A tree with keys at the root, below it, and among the arguments of an entity in a sequence. -/
def Value.ordered : Value :=
  .mapping [
    ("a", .mapping [("x", .scalar (.int 1)), ("y", .sequence [.entity (.string "e")
      (.mapping [("k", .scalar (.float ⟨0⟩)), ("l", .scalar (.int 2))])])]),
    ("b", .null)]

/-- The tree with all its keys in another order, and with the other zero. -/
def Value.reordered : Value :=
  .mapping [
    ("b", .null),
    ("a", .mapping [("y", .sequence [.entity (.string "e")
      (.mapping [("l", .scalar (.int 2)), ("k", .scalar (.float ⟨0x8000000000000000⟩))])]),
        ("x", .scalar (.int 1))])]

/-- Two of four rules are broken whatever the order of the keys. -/
theorem RuleSet.check_eq_of_same_reordered : ∃ rules,
    RuleSet.ofSpecs ["a:y", "c"] ["a:x:1", "a:x:2"] = .ok rules ∧
      rules.check "site.neon" Value.ordered = rules.check "site.neon" Value.reordered ∧
        rules.check "site.neon" Value.reordered = ⟨"site.neon", ["a:y"], ["a:x:1"]⟩ := by
  have hordered : Value.ordered.Distinct :=
    ⟨by decide, ⟨by decide, trivial, ⟨⟨trivial, by decide, trivial, trivial, trivial⟩, trivial⟩,
      trivial⟩, trivial, trivial⟩
  have hreordered : Value.reordered.Distinct :=
    ⟨by decide, trivial, ⟨by decide, ⟨⟨trivial, by decide, trivial, trivial, trivial⟩, trivial⟩,
      trivial, trivial⟩, trivial⟩
  have hsame : Value.ordered.same Value.reordered = true := by decide +kernel
  obtain ⟨rules, hrules, hcheck⟩ : ∃ rules, ofSpecs ["a:y", "c"] ["a:x:1", "a:x:2"] = .ok rules ∧
      rules.check "site.neon" Value.reordered = ⟨"site.neon", ["a:y"], ["a:x:1"]⟩ :=
    ⟨_, rfl, by decide +kernel⟩
  exact ⟨rules, hrules, (check_eq_of_same hordered hreordered hsame rules "site.neon").1, hcheck⟩

end NeonAudit
