import NeonAudit.Proofs.Containment
import NeonAudit.Proofs.Rule.Reading

/-!
# Rules and trees

Whether a tree breaks a value rule is found out by walking the path of the rule in the tree, so a tree
that is nested along a path breaks the key rule of the path, and a value rule of the path exactly if
the values are the same.
-/

namespace NeonAudit

namespace ValueRule

/-- A tree contains the fragment of a value rule exactly if the path of the rule leads in the tree
to the value of the literal after the last colon of the rule; so the path of a rule that is broken
exists. -/
theorem contains_fragment_iff_getPath? {spec : String} {rule : ValueRule}
    (h : ofSpec spec = .ok rule) :
    ∃ before after literal, spec.toList = before ++ ':' :: after ∧ ':' ∉ after ∧
      Value.ofLiteral (String.ofList (Text.trimBlank after)) = .ok literal ∧
        ∀ tree : Value,
          (tree.contains rule.fragment = true ↔
            ∃ found, tree.getPath? rule.path.segments = some found ∧ literal.same found = true) ∧
          (rule.isBroken tree = true → rule.path.isBroken tree = true) := by
  obtain ⟨before, after, hspec, hcolon, -, hliteral⟩ := exists_of_ofSpec h
  refine ⟨before, after, rule.value, hspec, hcolon, hliteral, ?_⟩
  intro tree
  have hcontains : tree.contains rule.fragment = true ↔
      ∃ found, tree.getPath? rule.path.segments = some found ∧ rule.value.same found = true := by
    rw [fragment, Value.contains_nestAlong, Option.any_eq_true]
    simp only [Value.contains_ofLiteral hliteral]
  refine ⟨hcontains, ?_⟩
  intro hbroken
  obtain ⟨found, hfound, -⟩ := hcontains.1 hbroken
  rw [KeyPath.isBroken, Value.hasPath, hfound]
  rfl

/-- Whatever the tree, the rule for a keyword between blanks is about the truth value of the
keyword. -/
theorem contains_fragment_iff_getPath?_keyword :
    ∃ rule, ofSpec "http:frames: Yes\t" = .ok rule ∧
      ∀ tree : Value,
        (tree.contains rule.fragment = true ↔
          ∃ found, tree.getPath? ["http", "frames"] = some found ∧
            (Value.scalar (.bool true)).same found = true) ∧
        (rule.isBroken tree = true → tree.hasPath ["http", "frames"] = true) := by
  let rule : ValueRule :=
    ⟨⟨["http", "frames"], by simp, by simp⟩, .scalar (.bool true), "http:frames: Yes\t"⟩
  have hrule : ofSpec "http:frames: Yes\t" = .ok rule := rfl
  obtain ⟨before, after, literal, hspec, hcolon, hliteral, htree⟩ :=
    contains_fragment_iff_getPath? hrule
  have hsplit := Text.splitLast?_append_cons hcolon before
  rw [← hspec] at hsplit
  cases hsplit
  cases hliteral
  exact ⟨rule, hrule, htree⟩

end ValueRule

/-- A tree that is nested along a path breaks the key rule of the path, and the value rule of the
path and a literal exactly if the literal denotes the value at the end of the path. -/
theorem RuleSet.check_nestAlong {path : KeyPath} {text : String} {value : Value}
    (h : Value.ofLiteral text = .ok value) (spec file : String) (tree : Value) :
    (RuleSet.mk [path] [⟨path, value, spec⟩]).check file (tree.nestAlong path.segments) =
      ⟨file, [path.text], if value.same tree then [spec] else []⟩ := by
  have hkey : path.isBroken (tree.nestAlong path.segments) = true := by
    rw [KeyPath.isBroken, Value.hasPath, Value.getPath?_nestAlong]
    rfl
  have hvalue : (ValueRule.mk path value spec).isBroken (tree.nestAlong path.segments) =
      value.same tree := by
    rw [ValueRule.isBroken, ValueRule.fragment, Value.contains_nestAlong,
      Value.getPath?_nestAlong, Option.any_some, Value.contains_ofLiteral h]
  rw [check]
  simp only [List.filter_cons, List.filter_nil, hkey, hvalue, if_true]
  split <;> rfl

end NeonAudit
