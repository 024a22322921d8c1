import NeonAudit.Audit.Check
import NeonAudit.Proofs.Literal.Denoted
import NeonAudit.Proofs.Result
import NeonAudit.Proofs.Text.Split

/-!
# How rules are read

A key rule is read exactly if it consists of keys with colons between them, and its path is written
as the rule again. A value rule is read exactly if there is a key rule before its last colon and
something else than white space after it, and otherwise the first of three errors that applies is
reported with the rule. A check reports the rules that a tree breaks as they were written, because
the rules of a rule set stand in the order of their texts and each of them keeps its text.
-/

namespace NeonAudit

/-- Nothing is left of a text that is trimmed exactly if it is blank. -/
theorem Text.trimBlank_eq_nil_iff {text : List Char} :
    trimBlank text = [] ↔ ∀ c ∈ text, isBlank c = true := by
  rw [trimBlank, List.reverse_eq_nil_iff, List.dropWhile_eq_nil_iff]
  simp only [List.mem_reverse]
  constructor
  · intro h c hc
    rw [← List.takeWhile_append_dropWhile (p := isBlank) (l := text), List.mem_append] at hc
    exact hc.elim List.mem_takeWhile_imp (h c)
  · intro h c hc
    exact h c ((List.dropWhile_suffix isBlank).subset hc)

namespace KeyPath

/-- The path of keys of which none is empty. -/
theorem ofSegments_eq_ok {segments : List String} (hne : segments ≠ [])
    (hempty : ∀ segment ∈ segments, segment ≠ "") :
    ofSegments segments = .ok ⟨segments, hne, hempty⟩ := by
  rw [ofSegments, dif_neg hne, dif_pos hempty]

/-- Keys without colons are those of the key rule that joins them. -/
theorem ofSpec_joinSegments {segments : List String} (hne : segments ≠ [])
    (hempty : ∀ segment ∈ segments, segment ≠ "")
    (hcolon : ∀ segment ∈ segments, ':' ∉ segment.toList) :
    ofSpec (joinSegments segments) = .ok ⟨segments, hne, hempty⟩ := by
  have hsegments : segmentsOf (joinSegments segments) = segments := by
    rw [segmentsOf, joinSegments, String.toList_ofList,
      Text.map_ofList_split_intercalate hne hcolon]
  have hspec : joinSegments segments ≠ "" := by
    intro hspec
    rw [hspec] at hsegments
    exact hempty "" (hsegments ▸ List.mem_singleton_self _) rfl
  rw [ofSpec, if_neg hspec, hsegments, ofSegments_eq_ok hne hempty]
  rfl

/-- Keys are joined with colons. -/
theorem joinSegments_eq_intercalate (segments : List String) :
    joinSegments segments = ":".intercalate segments := by
  apply String.toList_injective
  rw [joinSegments, String.toList_ofList, String.toList_intercalate]
  rfl

/-- The parts of a text between its colons are joined to the text. -/
theorem joinSegments_segmentsOf (spec : String) : joinSegments (segmentsOf spec) = spec := by
  have hparts : (segmentsOf spec).map String.toList = Text.split ':' spec.toList := by
    rw [segmentsOf, List.map_map]
    simp [Function.comp_def]
  rw [joinSegments, hparts, Text.intercalate_split, String.ofList_toList]

/-- The keys of a key rule are its parts between the colons. -/
theorem segments_of_ofSpec {spec : String} {path : KeyPath} (h : ofSpec spec = .ok path) :
    path.segments = segmentsOf spec := by
  unfold ofSpec at h
  split at h
  · contradiction
  · have hpath := Result.of_mapError_eq_ok h
    unfold ofSegments at hpath
    split at hpath
    · contradiction
    · split at hpath
      · rw [← Except.ok.inj hpath]
      · contradiction

/-- The path of a key rule is written as the rule. -/
theorem text_of_ofSpec {spec : String} {path : KeyPath} (h : ofSpec spec = .ok path) :
    path.text = spec := by
  rw [text, segments_of_ofSpec h, joinSegments_segmentsOf]

/-- A text is a key rule with some keys exactly if it is made of these keys with colons between them,
and there is a key, and none is empty or has a colon. -/
theorem exists_ofSpec_iff {spec : String} {segments : List String} :
    (∃ path, ofSpec spec = .ok path ∧ path.segments = segments) ↔
      segments ≠ [] ∧ (∀ segment ∈ segments, segment ≠ "" ∧ ':' ∉ segment.toList) ∧
        spec = ":".intercalate segments := by
  rw [← joinSegments_eq_intercalate]
  constructor
  · rintro ⟨path, hpath, rfl⟩
    have hsegments := segments_of_ofSpec hpath
    refine ⟨path.ne_nil, fun segment hsegment => ⟨path.segment_ne_empty segment hsegment, ?_⟩, ?_⟩
    · rw [hsegments, segmentsOf] at hsegment
      obtain ⟨part, hpart, rfl⟩ := List.mem_map.1 hsegment
      rw [String.toList_ofList]
      exact Text.notMem_of_mem_split hpart
    · rw [hsegments, joinSegments_segmentsOf]
  · rintro ⟨hne, hsegments, rfl⟩
    exact ⟨_, ofSpec_joinSegments hne (fun segment hmem => (hsegments segment hmem).1)
      fun segment hmem => (hsegments segment hmem).2, rfl⟩

end KeyPath

namespace ValueRule

/-- What a text is read as: nothing for want of a colon; nothing for want of anything but white space
after the last colon; nothing for want of a key rule before it; or the rule about the path of that
key rule and the value of the literal after the colon, freed from white space around it. -/
inductive IsReadAs (spec : String) : Except RuleError ValueRule → Prop
  | missingPath : ':' ∉ spec.toList → IsReadAs spec (.error (.missingPath spec))
  | missingLiteral {before after} : spec.toList = before ++ ':' :: after → ':' ∉ after →
      (∀ c ∈ after, Text.isBlank c = true) → IsReadAs spec (.error (.missingLiteral spec))
  | emptySegment {before after c} : spec.toList = before ++ ':' :: after → ':' ∉ after →
      c ∈ after → Text.isBlank c = false →
      (∀ path, KeyPath.ofSpec (String.ofList before) ≠ .ok path) →
      IsReadAs spec (.error (.emptySegment spec))
  | rule {before after c path value} : spec.toList = before ++ ':' :: after → ':' ∉ after →
      c ∈ after → Text.isBlank c = false → KeyPath.ofSpec (String.ofList before) = .ok path →
      Value.ofLiteral (String.ofList (Text.trimBlank after)) = .ok value →
      IsReadAs spec (.ok ⟨path, value, spec⟩)

section Colon

variable {spec : String} {before after : List Char} (hspec : spec.toList = before ++ ':' :: after)
  (hcolon : ':' ∉ after)

include hspec hcolon

/-- With nothing but white space after the last colon there is no literal. -/
theorem ofSpec_of_forall_isBlank (hblank : ∀ c ∈ after, Text.isBlank c = true) :
    ofSpec spec = .error (.missingLiteral spec) := by
  rw [ofSpec, hspec, Text.splitLast?_append_cons hcolon]
  dsimp only
  rw [Text.trimBlank_eq_nil_iff.2 hblank]
  rfl

variable {c : Char} (hc : c ∈ after) (hblank : Text.isBlank c = false)

include hc hblank

/-- With something else than white space after the last colon, the path and the literal decide. -/
theorem ofSpec_of_isBlank_eq_false :
    ofSpec spec =
      match KeyPath.ofSpec (String.ofList before) with
      | .error _ => .error (.emptySegment spec)
      | .ok path =>
        match Value.ofLiteral (String.ofList (Text.trimBlank after)) with
        | .error fault => .error (.zone fault)
        | .ok value => .ok ⟨path, value, spec⟩ := by
  have hne : Text.trimBlank after ≠ [] := by
    intro hnil
    have hblank' := Text.trimBlank_eq_nil_iff.1 hnil c hc
    rw [hblank] at hblank'
    contradiction
  rw [ofSpec, hspec, Text.splitLast?_append_cons hcolon]
  exact if_neg (by rwa [List.isEmpty_iff])

/-- Without a key rule before the last colon there is an empty key. -/
theorem ofSpec_of_forall_ne_ok
    (hpath : ∀ path, KeyPath.ofSpec (String.ofList before) ≠ .ok path) :
    ofSpec spec = .error (.emptySegment spec) := by
  rw [ofSpec_of_isBlank_eq_false hspec hcolon hc hblank]
  cases hofSpec : KeyPath.ofSpec (String.ofList before) with
  | error error => rfl
  | ok path => exact absurd hofSpec (hpath path)

/-- A key rule before the last colon and a literal after it make a value rule. -/
theorem ofSpec_of_eq_ok {path : KeyPath} {value : Value}
    (hpath : KeyPath.ofSpec (String.ofList before) = .ok path)
    (hvalue : Value.ofLiteral (String.ofList (Text.trimBlank after)) = .ok value) :
    ofSpec spec = .ok ⟨path, value, spec⟩ := by
  rw [ofSpec_of_isBlank_eq_false hspec hcolon hc hblank, hpath]
  dsimp only
  rw [hvalue]

end Colon

/-- What a text is read as is what the reader makes of it. -/
theorem IsReadAs.ofSpec_eq {spec : String} {result : Except RuleError ValueRule}
    (h : IsReadAs spec result) : ofSpec spec = result := by
  cases h with
  | missingPath hmem => rw [ofSpec, Text.splitLast?_eq_none_iff.2 hmem]
  | missingLiteral hspec hcolon hblank => exact ofSpec_of_forall_isBlank hspec hcolon hblank
  | emptySegment hspec hcolon hc hblank hpath =>
    exact ofSpec_of_forall_ne_ok hspec hcolon hc hblank hpath
  | rule hspec hcolon hc hblank hpath hvalue =>
    exact ofSpec_of_eq_ok hspec hcolon hc hblank hpath hvalue

/-- Every text is read as something. -/
theorem exists_isReadAs (spec : String) : ∃ result, IsReadAs spec result := by
  by_cases hmem : ':' ∈ spec.toList
  · obtain ⟨⟨before, after⟩, hsplit⟩ :=
      Option.ne_none_iff_exists'.1 (mt Text.splitLast?_eq_none_iff.1 (not_not_intro hmem))
    obtain ⟨hspec, hcolon⟩ := Text.append_of_splitLast? hsplit
    by_cases hblank : ∀ c ∈ after, Text.isBlank c = true
    · exact ⟨_, .missingLiteral hspec.symm hcolon hblank⟩
    · obtain ⟨c, hc, hne⟩ : ∃ c ∈ after, Text.isBlank c = false := by simpa using hblank
      by_cases hpath : ∃ path, KeyPath.ofSpec (String.ofList before) = .ok path
      · obtain ⟨path, hpath⟩ := hpath
        -- There is no colon in the literal, so it has a value.
        obtain ⟨value, hvalue⟩ :
            ∃ value, Value.ofLiteral (String.ofList (Text.trimBlank after)) = .ok value := by
          apply Value.exists_ofLiteral_eq_ok
          rw [String.toList_ofList]
          exact fun hcolon' => hcolon (Text.mem_of_mem_trimBlank hcolon')
        exact ⟨_, .rule hspec.symm hcolon hc hne hpath hvalue⟩
      · exact ⟨_, .emptySegment hspec.symm hcolon hc hne (not_exists.1 hpath)⟩
  · exact ⟨_, .missingPath hmem⟩

/-- A text is read as one thing only, which the reader makes of it. -/
theorem ofSpec_eq_iff {spec : String} {result : Except RuleError ValueRule} :
    ofSpec spec = result ↔ IsReadAs spec result := by
  refine ⟨?_, IsReadAs.ofSpec_eq⟩
  rintro rfl
  obtain ⟨result, hresult⟩ := exists_isReadAs spec
  rwa [hresult.ofSpec_eq]

/-- A literal without colons and without blanks around it is the value of the rule that ends in
it. -/
theorem ofSpec_append {spec : String} {path : KeyPath} {literal : List Char} {value : Value}
    (hpath : KeyPath.ofSpec spec = .ok path) (hne : literal ≠ []) (hcolon : ':' ∉ literal)
    (htrim : Text.trimBlank literal = literal)
    (hvalue : Value.ofLiteral (String.ofList literal) = .ok value) :
    ofSpec (spec ++ ":" ++ String.ofList literal) =
      .ok ⟨path, value, spec ++ ":" ++ String.ofList literal⟩ := by
  have hspec : (spec ++ ":" ++ String.ofList literal).toList = spec.toList ++ ':' :: literal := by
    simp
  have hblank : ¬ ∀ c ∈ literal, Text.isBlank c = true := by
    rwa [← Text.trimBlank_eq_nil_iff, htrim]
  obtain ⟨c, hc, hne⟩ : ∃ c ∈ literal, Text.isBlank c = false := by simpa using hblank
  refine ofSpec_of_eq_ok hspec hcolon hc hne ?_ ?_
  · rwa [String.ofList_toList]
  · rwa [htrim]

/-- A value rule is spelled by its path, a colon, and a literal without colons between blanks. -/
theorem exists_of_ofSpec {spec : String} {rule : ValueRule} (h : ofSpec spec = .ok rule) :
    ∃ before after, spec.toList = before ++ ':' :: after ∧ ':' ∉ after ∧
      KeyPath.ofSpec (String.ofList before) = .ok rule.path ∧
        Value.ofLiteral (String.ofList (Text.trimBlank after)) = .ok rule.value := by
  cases ofSpec_eq_iff.1 h with
  | rule hspec hcolon _ _ hpath hvalue => exact ⟨_, _, hspec, hcolon, hpath, hvalue⟩

/-- A value rule keeps the text that it was read from. -/
theorem spec_of_ofSpec {spec : String} {rule : ValueRule} (h : ofSpec spec = .ok rule) :
    rule.spec = spec := by
  cases ofSpec_eq_iff.1 h
  rfl

end ValueRule

namespace RuleSet

/-- The rules of a rule set are read from the texts one by one. -/
theorem forall₂_of_ofSpecs {keys values : List String} {rules : RuleSet}
    (h : ofSpecs keys values = .ok rules) :
    List.Forall₂ (fun spec path => KeyPath.ofSpec spec = .ok path) keys rules.keys ∧
      List.Forall₂ (fun spec rule => ValueRule.ofSpec spec = .ok rule) values rules.values := by
  rw [← Result.mapM_eq_ok_iff, ← Result.mapM_eq_ok_iff]
  unfold ofSpecs at h
  split at h
  · contradiction
  · cases hkeys : keys.mapM KeyPath.ofSpec with
    | error error =>
      rw [hkeys] at h
      contradiction
    | ok paths =>
      cases hvalues : values.mapM ValueRule.ofSpec with
      | error error =>
        rw [hkeys, hvalues] at h
        contradiction
      | ok valueRules =>
        rw [hkeys, hvalues] at h
        cases h
        exact ⟨rfl, rfl⟩

/-- A text is a key rule exactly if it is made of keys without colons, none of them empty, with colons
between them, and the path of these keys is written as the text. A value rule is read, or refused with
an error, as `ValueRule.IsReadAs` says, and its fragment is nested along the keys and ends in its
value. A check reports those of the texts of a rule set, in their order and with their repetitions,
whose path exists in the tree or whose fragment the tree contains. -/
theorem check_eq_filter_specs :
    (∀ spec segments, (∃ path, KeyPath.ofSpec spec = .ok path ∧ path.segments = segments) ↔
      segments ≠ [] ∧ (∀ segment ∈ segments, segment ≠ "" ∧ ':' ∉ segment.toList) ∧
        spec = ":".intercalate segments) ∧
    (∀ spec path, KeyPath.ofSpec spec = .ok path → path.text = spec) ∧
    (∀ spec result, ValueRule.ofSpec spec = result ↔ ValueRule.IsReadAs spec result) ∧
    (∀ rule : ValueRule, rule.fragment = rule.path.segments.foldr Value.single rule.value) ∧
    ∀ keys values rules, ofSpecs keys values = .ok rules → ∀ file tree,
      rules.check file tree = ⟨file,
        keys.filter fun spec =>
          (KeyPath.ofSpec spec).toOption.any fun path => tree.hasPath path.segments,
        values.filter fun spec =>
          (ValueRule.ofSpec spec).toOption.any fun rule => tree.contains rule.fragment⟩ := by
  refine ⟨fun _ _ => KeyPath.exists_ofSpec_iff, fun _ _ => KeyPath.text_of_ofSpec,
    fun _ _ => ValueRule.ofSpec_eq_iff, fun _ => rfl, ?_⟩
  intro keys values rules h file tree
  obtain ⟨hkeys, hvalues⟩ := forall₂_of_ofSpecs h
  rw [check, Result.map_filter_eq_filter KeyPath.text_of_ofSpec hkeys,
    Result.map_filter_eq_filter ValueRule.spec_of_ofSpec hvalues]
  rfl

/-- A key may have a point and a blank. A rule with nothing but a blank after its last colon has no
literal, although it has an empty key too. Of four key rules and three value rules the ones that are
broken are reported as they are written, one of them twice. -/
theorem check_eq_filter_specs_repeated :
    let tree : Value := .mapping [
      ("http", .mapping [("frames", .scalar (.bool true)), ("csp", .null)]), ("mail", .null)]
    (∃ path, KeyPath.ofSpec "a.b: c" = .ok path ∧ path.segments = ["a.b", " c"] ∧
      path.text = "a.b: c") ∧
    ValueRule.ofSpec "a:: " = .error (.missingLiteral "a:: ") ∧
    ∃ rules, ofSpecs ["mail", "http:absent", "http:csp", "mail"]
        ["http:frames: yes ", "http:csp:on", "http:frames:True"] = .ok rules ∧
      rules.check "site.neon" tree = ⟨"site.neon", ["mail", "http:csp", "mail"],
        ["http:frames: yes ", "http:frames:True"]⟩ := by
  intro tree
  obtain ⟨hkey, htext, hvalue, -, hcheck⟩ := check_eq_filter_specs
  obtain ⟨path, hpath, hsegments⟩ := (hkey "a.b: c" ["a.b", " c"]).2
    ⟨by simp, by decide, by decide⟩
  obtain ⟨rules, hrules⟩ : ∃ rules, ofSpecs ["mail", "http:absent", "http:csp", "mail"]
      ["http:frames: yes ", "http:csp:on", "http:frames:True"] = .ok rules := ⟨_, rfl⟩
  refine ⟨⟨path, hpath, hsegments, htext _ path hpath⟩, ?_, rules, hrules, ?_⟩
  · exact (hvalue _ _).2 (@ValueRule.IsReadAs.missingLiteral _ ['a', ':'] [' '] rfl (by decide)
      (List.forall_mem_singleton.2 (by decide)))
  · rw [hcheck _ _ rules hrules]
    decide +kernel

end RuleSet

end NeonAudit
