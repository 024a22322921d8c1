import NeonAudit.Proofs.Document.KeyLines
import NeonAudit.Proofs.Literal.Bare
import NeonAudit.Proofs.Rule

/-!
# Rules written from documents

A document that nests keys, one on each line, and ends in a literal is decoded to the value of the
literal nested along the keys. The key rule that joins the keys finds it, and a value rule with the
same keys finds it exactly if the literals denote the same value.
-/

namespace NeonAudit

/-- A literal below keys: each key stands on a line of its own, deeper than the one before by the
unit, and the literal stands on the line of the last key. -/
def nestedText (unit : List Char) : (indent : List Char) → (segments : List String) →
    (literal : List Char) → List Char
  | _, [], literal => literal
  | _, [segment], literal => segment.toList ++ ':' :: ' ' :: literal
  | indent, segment :: next :: rest, literal =>
    segment.toList ++ ':' :: '\n' :: (indent ++ unit ++
      nestedText unit (indent ++ unit) (next :: rest) literal)

/-- A key that may be written without quotes is written so. -/
theorem keyText_of_isPlain {key : String} (h : isPlain key.toList = true) :
    keyText key = key.toList := by
  rw [keyText, if_pos h]

/-- Keys that may be written without quotes are written so on lines of their own. -/
theorem nestedText_eq (unit literal : List Char) {segments : List String}
    (hplain : ∀ segment ∈ segments, isPlain segment.toList = true) (indent : List Char) :
    nestedText unit indent segments literal = keyLinesText unit indent segments literal := by
  induction segments generalizing indent with
  | nil => rfl
  | cons segment rest ih =>
    have hsegment := keyText_of_isPlain (hplain segment List.mem_cons_self)
    cases rest with
    | nil => rw [nestedText, keyLinesText, entryText, hsegment]
    | cons next rest =>
      rw [nestedText, keyLinesText, hsegment,
        ih fun other hother => hplain other (List.mem_cons_of_mem _ hother)]

/-- A bare text spells the value of its literal. -/
theorem spellsLeaf_of_isBare {literal : List Char} {value : Value}
    (h : Piece.isBare literal = true)
    (hvalue : Value.ofLiteral (String.ofList literal) = .ok value) : SpellsLeaf literal value :=
  ⟨_, .literal hvalue, (Piece.isLiteral_of_isBare h).cuts⟩

/-- Nested keys are decoded to the value of the literal nested along them. -/
theorem decode_nestedText {unit literal lineEnd : List Char} {value : Value}
    (hunit : IsIndent unit) (hne : unit ≠ []) {segments : List String}
    (hlength : segments.length ≤ 256)
    (hplain : ∀ segment ∈ segments, isPlain segment.toList = true)
    (hliteral : Piece.isBare literal = true)
    (hvalue : Value.ofLiteral (String.ofList literal) = .ok value)
    (hend : isLineEnd lineEnd = true) :
    decode (String.ofList (nestedText unit [] segments literal ++ lineEnd)) =
      .ok (value.nestAlong segments) := by
  rw [nestedText_eq unit literal hplain]
  exact decode_keyLinesText hunit hne (spellsLeaf_of_isBare hliteral hvalue) hlength hend

/-- A key that may be written without quotes can be named by a rule. -/
theorem ne_empty_and_colon_notMem_of_isPlain {key : String} (h : isPlain key.toList = true) :
    key ≠ "" ∧ ':' ∉ key.toList := by
  simp only [isPlain, Bool.and_eq_true, List.all_eq_true] at h
  obtain ⟨⟨hempty, -⟩, hall⟩ := h
  refine ⟨?_, fun hmem => absurd (hall ':' hmem) (by decide)⟩
  rintro rfl
  exact absurd hempty (by decide)

/-- The key rule that joins nested keys finds their document, and the value rule of the same keys
with a second literal finds it exactly if both literals denote the same value. -/
theorem check_nestedText {unit literal literal' lineEnd : List Char} {segments : List String}
    (hunit : IsIndent unit) (hne : unit ≠ []) (hsegments : segments ≠ [])
    (hlength : segments.length ≤ 256)
    (hplain : ∀ segment ∈ segments, isPlain segment.toList = true)
    (hliteral : Piece.isBare literal = true) (hliteral' : Piece.isBare literal' = true)
    (hend : isLineEnd lineEnd = true) :
    ∃ value value' tree rules,
      Value.ofLiteral (String.ofList literal) = .ok value ∧
        Value.ofLiteral (String.ofList literal') = .ok value' ∧
          decode (String.ofList (nestedText unit [] segments literal ++ lineEnd)) = .ok tree ∧
            RuleSet.ofSpecs [KeyPath.joinSegments segments]
              [KeyPath.joinSegments segments ++ ":" ++ String.ofList literal'] = .ok rules ∧
              ∀ file, rules.check file tree =
                ⟨file, [KeyPath.joinSegments segments],
                  if value'.same value then
                    [KeyPath.joinSegments segments ++ ":" ++ String.ofList literal']
                  else []⟩ := by
  have hdenotes {text : List Char} (h : Piece.isBare text = true) :
      ∃ value, Value.ofLiteral (String.ofList text) = .ok value :=
    Value.exists_ofLiteral_eq_ok (by
      rw [String.toList_ofList]
      exact Piece.colon_notMem_of_isBare h)
  obtain ⟨value, hvalue⟩ := hdenotes hliteral
  obtain ⟨value', hvalue'⟩ := hdenotes hliteral'
  have hnamed (segment : String) (hmem : segment ∈ segments) :=
    ne_empty_and_colon_notMem_of_isPlain (hplain segment hmem)
  let path : KeyPath := ⟨segments, hsegments, fun segment hmem => (hnamed segment hmem).1⟩
  have hpath : KeyPath.ofSpec (KeyPath.joinSegments segments) = .ok path :=
    KeyPath.ofSpec_joinSegments hsegments path.segment_ne_empty fun segment hmem =>
      (hnamed segment hmem).2
  have hrule := ValueRule.ofSpec_append hpath (fun hnil => by rw [hnil] at hliteral'; contradiction)
    (Piece.colon_notMem_of_isBare hliteral') (Piece.trimBlank_of_isBare hliteral') hvalue'
  refine ⟨value, value', value.nestAlong path.segments, ⟨[path], [⟨path, value', _⟩]⟩, hvalue,
    hvalue', decode_nestedText hunit hne hlength hplain hliteral hvalue hend, ?_,
    fun file => RuleSet.check_nestAlong hvalue' _ file value⟩
  rw [RuleSet.ofSpecs, if_neg (by simp), List.mapM_cons, hpath, List.mapM_cons, hrule]
  rfl

/-- A truth value below two keys is found by rules whose literal is another word for it. -/
theorem check_nestedText_keyword : ∃ tree rules,
    decode "services:\n \tdb: yes\r\n" = .ok tree ∧
      RuleSet.ofSpecs ["services:db"] ["services:db:on"] = .ok rules ∧
        rules.check "site.neon" tree = ⟨"site.neon", ["services:db"], ["services:db:on"]⟩ := by
  obtain ⟨value, value', tree, rules, hvalue, hvalue', hdecode, hrules, hcheck⟩ :=
    @check_nestedText [' ', '\t'] ['y', 'e', 's'] ['o', 'n'] ['\r', '\n'] ["services", "db"]
      (by simp [IsIndent, Piece.isIndentation]) (by simp) (by simp) (by decide) (by decide)
      (by decide) (by decide) (by decide)
  obtain rfl : .scalar (.bool true) = value := Except.ok.inj hvalue
  obtain rfl : .scalar (.bool true) = value' := Except.ok.inj hvalue'
  have hkey : KeyPath.joinSegments ["services", "db"] = "services:db" := by decide +kernel
  rw [hkey] at hrules hcheck
  have hsame : Value.same (.scalar (.bool true)) (.scalar (.bool true)) = true := by
    rw [Value.same]
    rfl
  have hreport := hcheck "site.neon"
  rw [if_pos hsame] at hreport
  exact ⟨tree, rules, (congrArg decode (by decide +kernel)).trans hdecode, hrules, hreport⟩

end NeonAudit
