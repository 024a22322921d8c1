import NeonAudit.Proofs.Document.KeyLines
import NeonAudit.Proofs.Document.RoundTrip
import NeonAudit.Proofs.Document.Yield
import NeonAudit.Proofs.Literal.Denoted

/-!
# How deeply decoded values are nested

Every collection that is read takes one of the levels that may be opened, so a decoded value is
nested at most 256 deep. The bound is reached by keys on lines of their own, which open a block
each. The block of the document takes a level even if it is only one inline value, so brackets are
nested at most 255 deep.
-/

namespace NeonAudit

namespace Value

/-- What a literal denotes is no collection. -/
theorem nest_of_ofLiteral {raw : String} {value : Value} (h : ofLiteral raw = .ok value) :
    value.nest = 0 := by
  rcases ofLiteral_cases h with rfl | ⟨s, rfl, -⟩ | ⟨d, rfl, -⟩ <;> rfl

/-- An entity or a chain is nested as deeply as its links. -/
theorem nest_ofLinks (links : List (Value × Value)) : (ofLinks links).nest = nestLinks links := by
  unfold ofLinks
  split
  · rw [nest, nestLinks, nestLinks, Nat.max_zero]
  · rfl

end Value

open Value

/-- A collection takes one level more than its items. -/
theorem Item.nest_collect_le {items : List Item} {depth : Nat} {preferMapping : Bool}
    {value : Value} (hcollect : collect preferMapping items = .ok value)
    (h : ∀ item ∈ items, item.value.nest ≤ depth) : value.nest ≤ depth + 1 := by
  rcases collect_cases hcollect with rfl | ⟨-, entries, hinsert, rfl⟩
  · refine Nat.succ_le_succ (nestItems_le_iff.2 fun value hmem => ?_)
    obtain ⟨item, hitem, rfl⟩ := List.mem_map.1 hmem
    exact h item hitem
  · refine Nat.succ_le_succ (nestEntries_le_iff.2 fun entry hmem => ?_)
    rcases exists_of_mem_insertAll? hinsert hmem with hnil | ⟨item, hitem, hvalue⟩
    · exact absurd hnil List.not_mem_nil
    · exact hvalue ▸ h item hitem

/-- Values that are nested at most so deep may be handed on. -/
theorem nest_le_handedOn (depth : Nat) : HandedOn fun _ value => value.nest ≤ depth where
  null _ := Nat.zero_le depth
  mono h _ := h

section Inline

variable {finish : Position} {depth : Nat}

/-- The values inside brackets are nested less than so deep. -/
def NestsInside (finish : Position) (depth : Nat) : Prop :=
  ∀ inner, depth = inner + 1 → (inlineValue finish inner).Yields fun _ value => value.nest ≤ inner

/-- A collection in brackets takes a level more than the values inside. -/
theorem nest_le_of_bracketed (hinside : NestsInside finish depth) {bracket : Bracket}
    {position : Position} {tokens rest : List Token} {value : Value}
    (h : bracketed finish (inside? finish depth) bracket position tokens = .ok (value, rest)) :
    value.nest ≤ depth := by
  cases depth with
  | zero => contradiction
  | succ depth =>
    obtain ⟨items, hrun, hcollect⟩ := of_collected_eq_ok h
    exact Item.nest_collect_le hcollect
      ((nest_le_handedOn depth).inlineItems (hinside depth rfl) hrun)

/-- The value of a literal is no collection. -/
theorem nest_of_literalValue {raw : String} {value : Value} (h : literalValue raw = .ok value) :
    value.nest = 0 := by
  unfold literalValue at h
  cases hraw : ofLiteral raw with
  | error fault =>
    rw [hraw] at h
    contradiction
  | ok other =>
    rw [hraw] at h
    cases h
    exact nest_of_ofLiteral hraw

/-- Links are nested at most so deep if the first name is. -/
theorem nestLinks_le_of_entityLinks (hinside : NestsInside finish depth) {name : Value}
    (hname : name.nest ≤ depth) {position : Position} {tokens rest : List Token}
    {links : List (Value × Value)}
    (h : entityLinks finish (inside? finish depth) name position tokens = .ok (links, rest)) :
    nestLinks links ≤ depth := by
  rw [nestLinks_le_iff]
  fun_induction entityLinks finish (inside? finish depth) name position tokens
    generalizing links rest with
  | case1 => contradiction
  | case2 name position tokens arguments rest' hargs _ =>
    cases h
    exact List.forall_mem_singleton.2 ⟨hname, nest_le_of_bracketed hinside hargs⟩
  | case3 => contradiction
  | case4 name position tokens arguments rest' hargs raw position' after hlink next hnext _ _ =>
    rename_i ih
    obtain ⟨⟨links', rest''⟩, hrun, hpair⟩ := Result.of_map_eq_ok h
    cases hpair
    have hle : next.nest ≤ depth := nest_of_literalValue hnext ▸ Nat.zero_le depth
    exact List.forall_mem_cons.2 ⟨⟨hname, nest_le_of_bracketed hinside hargs⟩, ih hle hrun⟩

/-- A value without arguments is nested at most as deep as brackets are. -/
theorem nest_le_of_plainValue (hinside : NestsInside finish depth) {tokens rest : List Token}
    {value : Value} (h : plainValue finish (inside? finish depth) tokens = .ok (value, rest)) :
    value.nest ≤ depth := by
  unfold plainValue at h
  split at h
  · contradiction
  · split at h
    · cases h
      exact Nat.zero_le depth
    · obtain ⟨value', hvalue, hpair⟩ := Result.of_map_eq_ok h
      cases hpair
      exact nest_of_literalValue hvalue ▸ Nat.zero_le depth
    · exact nest_le_of_bracketed hinside h
    · exact nest_le_of_bracketed hinside h
    · contradiction

/-- A value with arguments is nested at most as deep as brackets are. -/
theorem nest_le_of_valueWith (hinside : NestsInside finish depth) {tokens rest : List Token}
    {value : Value} (h : valueWith finish (inside? finish depth) tokens = .ok (value, rest)) :
    value.nest ≤ depth := by
  unfold valueWith at h
  split at h
  · contradiction
  · rename_i name rest' hplain
    have hname := nest_le_of_plainValue hinside hplain
    split at h
    · cases h
      exact hname
    · obtain ⟨⟨links, rest''⟩, hlinks, hpair⟩ := Result.of_map_eq_ok h
      cases hpair
      rw [nest_ofLinks]
      exact nestLinks_le_of_entityLinks hinside hname hlinks

end Inline

/-- Inline values are nested at most as deep as brackets may be. -/
theorem inlineValue_yields_nest_le (finish : Position) (depth : Nat) :
    (inlineValue finish depth).Yields fun _ value => value.nest ≤ depth := by
  have hstep {depth : Nat} (hinside : NestsInside finish depth) :
      (inlineValue finish depth).Yields fun _ value => value.nest ≤ depth := by
    intro tokens value rest h
    rw [run_inlineValue] at h
    exact nest_le_of_valueWith hinside h
  induction depth with
  | zero => exact hstep fun _ h => absurd h (Nat.succ_ne_zero _).symm
  | succ depth ih => exact hstep fun _ h => Nat.succ.inj h ▸ ih

/-- Blocks are nested at most as deep as they may be. -/
theorem block_yields_nest_le (finish : Position) (depth : Nat) (indent : List Char)
    (onlyDashes : Bool) :
    (block finish depth indent onlyDashes).Yields fun _ value => value.nest ≤ depth := by
  induction depth generalizing indent onlyDashes with
  | zero =>
    intro tokens value rest h
    contradiction
  | succ depth ih =>
    intro tokens value rest h
    change blockWith finish (inlineValue finish depth) (block finish depth) indent onlyDashes
      tokens = .ok (value, rest) at h
    unfold blockWith at h
    split at h
    · exact Nat.le_succ_of_le (inlineValue_yields_nest_le finish depth h)
    · obtain ⟨items, hrun, hcollect⟩ := of_collected_eq_ok h
      exact Item.nest_collect_le hcollect ((nest_le_handedOn depth).blockItems
        (inlineValue_yields_nest_le finish depth) ih hrun)

/-- A decoded value is nested at most 256 deep. -/
theorem nest_le_of_decode {source : String} {value : Value} (h : decode source = .ok value) :
    value.nest ≤ 256 := by
  unfold decode decodeChars at h
  split at h
  · contradiction
  · unfold Value.ofTokens at h
    dsimp only at h
    split at h
    · cases h
      exact Nat.zero_le 256
    · split at h
      · contradiction
      · rename_i value' rest hrun
        split at h
        · cases h
          exact block_yields_nest_le _ _ _ _ hrun
        · contradiction

section Brackets

/-- Nested pairs of square brackets with nothing between the innermost ones. -/
def nestedBrackets (count : Nat) : List Char :=
  List.replicate count '[' ++ List.replicate count ']'

/-- The pairs inside the outermost brackets are one fewer. -/
theorem nestedBrackets_succ (count : Nat) :
    nestedBrackets (count + 1) = '[' :: nestedBrackets count ++ [']'] := by
  rw [nestedBrackets, List.replicate_succ, List.replicate_succ', nestedBrackets, List.cons_append,
    List.cons_append, List.append_assoc]

/-- The sequence that nested brackets spell, with one pair for it and one for each level inside. -/
def nestedSequence : (inner : Nat) → Value
  | 0 => .sequence []
  | inner + 1 => .sequence [nestedSequence inner]

/-- The text of nested sequences is nested brackets. -/
theorem text_nestedSequence (inner : Nat) :
    (nestedSequence inner).text = nestedBrackets (inner + 1) := by
  induction inner with
  | zero => rfl
  | succ inner ih =>
    rw [nestedBrackets_succ, nestedSequence, text, itemTexts, itemTexts,
      List.intercalate_singleton, ih]

/-- Nested sequences are nested as deep as there are pairs of brackets. -/
theorem nest_nestedSequence (inner : Nat) : (nestedSequence inner).nest = inner + 1 := by
  induction inner with
  | zero => rfl
  | succ inner ih => rw [nestedSequence, nest, nestItems, nestItems, ih, Nat.max_zero]

/-- Nested sequences are legible. -/
theorem nestedSequence_legible (inner : Nat) : (nestedSequence inner).Legible := by
  induction inner with
  | zero => exact .sequence trivial fun _ hmem => absurd hmem List.not_mem_nil
  | succ inner ih => exact .sequence trivial (List.forall_mem_singleton.2 ih)

/-- The tokens start with so many opening brackets. -/
inductive OpensSquares : (count : Nat) → List Token → Prop
  | zero {tokens} : OpensSquares 0 tokens
  | succ {count opening tokens} : opening.kind = .mark .openSquare → OpensSquares count tokens →
      OpensSquares (count + 1) (opening :: tokens)

/-- More tokens may follow the opening brackets. -/
theorem OpensSquares.append {count : Nat} {tokens : List Token} (h : OpensSquares count tokens)
    (after : List Token) : OpensSquares count (tokens ++ after) := by
  induction h with
  | zero => exact .zero
  | succ hopening _ ih => exact .succ hopening ih

/-- Nested brackets spell tokens that start with the opening ones. -/
theorem spells_nestedBrackets (count : Nat) :
    SpelledOrEmpty (nestedBrackets count) fun _ tokens => OpensSquares count tokens := by
  induction count with
  | zero => exact .empty fun _ => .zero
  | succ count ih =>
    rw [nestedBrackets_succ]
    refine .spelled ((ih.enclose .openSquare .closeSquare rfl rfl rfl).mono ?_)
    rintro p tokens ⟨opening, a, closing, rfl, hopening, -, ha⟩
    exact .succ hopening (ha.append [closing])

/-- A value fails where the first bracket opens that may not be nested so deep. -/
theorem OpensSquares.tooDeep {count : Nat} {tokens : List Token} (h : OpensSquares count tokens)
    {depth : Nat} (hdepth : depth < count) (finish : Position) :
    ∃ position, (inlineValue finish depth).run tokens = .error (.at position .tooDeep) := by
  induction h generalizing depth with
  | zero => exact absurd hdepth (Nat.not_lt_zero depth)
  | @succ count opening tokens hopening hinner ih =>
    have hrun {position : Position} (h : bracketed finish (inside? finish depth) .square
        opening.position tokens = .error (.at position .tooDeep)) :
        (inlineValue finish depth).run (opening :: tokens) = .error (.at position .tooDeep) := by
      rw [run_inlineValue, valueWith, plainValue, hopening]
      dsimp only
      rw [h]
    cases depth with
    | zero => exact ⟨opening.position, hrun rfl⟩
    | succ depth =>
      obtain ⟨position, hfailure⟩ := ih (Nat.lt_of_succ_lt_succ hdepth)
      refine ⟨position, hrun ?_⟩
      cases hinner with
      | zero => exact absurd (Nat.lt_of_succ_lt_succ hdepth) (Nat.not_lt_zero depth)
      | @succ count next tokens hnext _ =>
        have hskip : skipLineBreaks (next :: tokens) = next :: tokens :=
          List.dropWhile_cons_of_neg (by simp [Token.isLineBreak, hnext])
        have hfront : startsWithMark .closeSquare (next :: tokens) = false :=
          decide_eq_false (by simp [hnext])
        have hitem : inlineItem (inlineValue finish depth) .closeSquare [] (next :: tokens) =
            .error (.at position .tooDeep) := by
          rw [inlineItem, splitKey?_of_key?_eq_none (by rw [Token.key?, hnext])]
          dsimp only
          rw [hfailure]
          rfl
        rw [inside?, bracketed, Bracket.close,
          inlineItems_of_item_error (by rw [hskip, hfront]) (by rw [hskip, hitem])]
        rfl

/-- A block that starts with an opening bracket fails as the inline value does. -/
theorem OpensSquares.block {count : Nat} {tokens : List Token} (h : OpensSquares count tokens)
    (hcount : 0 < count) {finish : Position} {depth : Nat} {failure : DecodeFailure}
    (hrun : (inlineValue finish depth).run tokens = .error failure) (indent : List Char) :
    (block finish (depth + 1) indent false).run tokens = .error failure := by
  cases h with
  | zero => contradiction
  | @succ count opening tokens hopening _ =>
    have hstart : itemStart? false (opening :: tokens) = none := by
      rw [itemStart?, if_neg (by simp [hopening]), if_neg Bool.false_ne_true,
        splitKey?_of_key?_eq_none (by rw [Token.key?, hopening])]
      rfl
    change blockWith finish (inlineValue finish depth) (NeonAudit.block finish depth) indent false
      (opening :: tokens) = .error failure
    rw [blockWith, hstart]
    exact hrun

/-- A document of more nested brackets than may be opened is nested too deeply. -/
theorem decode_nestedBrackets_error {count : Nat} (h : 255 < count) :
    ∃ position, decode (String.ofList (nestedBrackets count)) =
      .error (.at position .tooDeep) := by
  have hspells := spells_nestedBrackets count
  generalize htext : nestedBrackets count = text at hspells
  cases hspells with
  | empty hnil =>
    have hpos : 0 < count := Nat.lt_of_le_of_lt (Nat.zero_le 255) h
    obtain ⟨inner, rfl⟩ := Nat.exists_eq_succ_of_ne_zero hpos.ne'
    contradiction
  | spelled hspelled =>
    have hblock : Spelled text fun _ tokens => ∀ finish after, ∃ cause,
        (block finish maxDepth [] false).run (tokens ++ after) = .error cause ∧
          ∃ position, cause = .at position .tooDeep := by
      refine hspelled.mono fun hopens finish after => ?_
      obtain ⟨position, hrun⟩ := (hopens.append after).tooDeep h finish
      exact ⟨_, (hopens.append after).block (Nat.zero_lt_of_lt h) hrun [], position, rfl⟩
    have hend : isLineEnd [] = true := rfl
    obtain ⟨failure, hdecode, position, rfl⟩ := decodeChars_of_spelled_error hblock hend
    rw [decode, String.toList_ofList, ← List.append_nil text]
    exact ⟨position, hdecode⟩

/-- Nested brackets are decoded to nested sequences if there are at most 255 pairs. -/
theorem exists_decode_nestedBrackets {count : Nat} (h : count ≤ 255) :
    ∃ value, decode (String.ofList (nestedBrackets count)) = .ok value := by
  cases count with
  | zero =>
    have htokens : TokenStream.ofSource [] = .ok ⟨[⟨.lineBreak [], "\n", .start⟩], .start⟩ := by
      rw [TokenStream.ofSource, List.dropWhile_nil, Piece.ofSource]
      rfl
    refine ⟨.null, ?_⟩
    rw [decode, String.toList_ofList, nestedBrackets, List.replicate_zero, List.replicate_zero,
      List.append_nil, decodeChars, htokens]
    rfl
  | succ inner =>
    have hdecode := (nestedSequence_legible inner).decode_eq
      (by rw [nest_nestedSequence]; exact h)
    rw [encode, text_nestedSequence] at hdecode
    exact ⟨_, hdecode⟩

end Brackets

/-- A decoded value is nested at most 256 deep. Nested brackets are decoded exactly if there are at
most 255 pairs, and nested keys on lines of their own exactly if there are at most 256. -/
theorem decode_depth_bound :
    (∀ {source value}, decode source = .ok value → value.nest ≤ 256) ∧
      (∀ count, (∃ value, decode (String.ofList (nestedBrackets count)) = .ok value) ↔
        count ≤ 255) ∧
      ∀ {unit leaf lineEnd s}, IsIndent unit → unit ≠ [] → SpellsLeaf leaf (.scalar s) →
        isLineEnd lineEnd = true → ∀ keys,
          (∃ value, decode (String.ofList (keyLinesText unit [] keys leaf ++ lineEnd)) =
            .ok value) ↔ keys.length ≤ 256 := by
  refine ⟨nest_le_of_decode, fun count => ⟨?_, exists_decode_nestedBrackets⟩,
    fun hunit hne hleaf hend keys => ⟨?_, fun hlength =>
      ⟨_, decode_keyLinesText hunit hne hleaf hlength hend⟩⟩⟩
  · rintro ⟨value, hdecode⟩
    by_contra hcount
    obtain ⟨position, herror⟩ := decode_nestedBrackets_error (Nat.lt_of_not_le hcount)
    rw [herror] at hdecode
    contradiction
  · rintro ⟨value, hdecode⟩
    by_contra hlength
    obtain ⟨position, herror⟩ :=
      decode_keyLinesText_error hunit hne hleaf (Nat.lt_of_not_le hlength) hend
    rw [herror] at hdecode
    contradiction

/-- Three keys on lines of their own are decoded, to a value that is not nested too deeply. -/
theorem decode_depth_bound_tabs :
    ∃ value, decode "a:\n\tb:\n\t\tc: null\r\n" = .ok value ∧ value.nest ≤ 256 := by
  obtain ⟨hbound, -, hkeys⟩ := decode_depth_bound
  have hleaf : SpellsLeaf ['n', 'u', 'l', 'l'] (.scalar .null) := Scalar.spellsLeaf trivial
  obtain ⟨value, hdecode⟩ := (@hkeys ['\t'] _ ['\r', '\n'] _
    (by simp [IsIndent, Piece.isIndentation]) (by simp) hleaf rfl ["a", "b", "c"]).2 (by decide)
  have htext : decode "a:\n\tb:\n\t\tc: null\r\n" = .ok value :=
    (congrArg decode (by decide +kernel)).trans hdecode
  exact ⟨value, htext, hbound htext⟩

end NeonAudit
