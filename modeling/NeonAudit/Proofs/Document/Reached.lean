import NeonAudit.Proofs.Document.Lines

/-!
# Blocks that are reached

While a document is read, a block is read wherever the value of an item is one. `HoldsBlock` says
that of an item whatever the parsers are: the value is what the parser of blocks makes of certain
tokens under a certain indentation. From the block of the document on, `ReachesItem` follows the
items of one block and `ReachesBlock` the blocks inside blocks, also those that are nested too
deeply and those of documents that fail later. No block is missed: what a document is read as
depends on the parsers of blocks only where blocks are reached.
-/

namespace NeonAudit

/-- The value of an item, of which the tokens after its start are given, is a block of the inner
indentation that starts with the last tokens, whatever reads values and blocks. -/
def HoldsBlock (indent : List Char) (dash : Bool) (tokens : List Token) (inner : List Char)
    (innerDashes : Bool) (rest : List Token) : Prop :=
  ∀ values blocks, itemValue values blocks indent dash tokens = (blocks inner innerDashes).run rest

section Item

variable {indent inner inner' : List Char} {dash innerDashes innerDashes' : Bool}
  {tokens rest rest' : List Token}

/-- Where the value of an item is a block: on the lines after a line break that tells its
indentation, or after a dash on its line. -/
inductive IsBlockPlace (indent : List Char) (dash : Bool) (tokens : List Token)
    (inner : List Char) : List Token → Prop
  | below {lineBreak rest} : tokens = lineBreak :: rest → lineBreak.kind = .lineBreak inner →
      IsBlockPlace indent dash tokens inner rest
  | compact {token rest} : tokens = token :: rest → token.isLineBreak = false → dash = true →
      inner = innerIndent indent token.position.column →
        IsBlockPlace indent dash tokens inner tokens

/-- The value of an item is a block at such a place, or no block is read for it. -/
theorem itemValue_cases (indent : List Char) (dash : Bool) (tokens : List Token) :
    (∃ inner innerDashes rest, HoldsBlock indent dash tokens inner innerDashes rest ∧
        IsBlockPlace indent dash tokens inner rest) ∨
      ∀ values blocks blocks', itemValue values blocks indent dash tokens =
        itemValue values blocks' indent dash tokens := by
  cases tokens with
  | nil => exact .inr fun _ _ _ => rfl
  | cons token rest =>
    cases hbreak : token.isLineBreak with
    | false =>
      by_cases hopens : (dash && opensBlock (token :: rest)) = true
      · refine .inl ⟨_, false, token :: rest, fun values blocks => ?_,
          .compact rfl hbreak (Bool.and_eq_true_iff.1 hopens).1 rfl⟩
        rw [itemValue_of_isLineBreak hbreak, if_pos hopens]
      · refine .inr fun values blocks blocks' => ?_
        rw [itemValue_of_isLineBreak hbreak, itemValue_of_isLineBreak hbreak, if_neg hopens,
          if_neg hopens]
    | true =>
      obtain ⟨next, hkind⟩ := Token.exists_of_isLineBreak hbreak
      simp only [HoldsBlock, itemValue, hkind]
      by_cases hempty : rest.isEmpty = true
      · exact .inr fun _ _ _ => by rw [if_pos hempty, if_pos hempty]
      · simp only [if_neg hempty]
        cases hcompare : compareIndent next indent with
        | none => exact .inr fun _ _ _ => rfl
        | some ordering =>
          cases ordering with
          | lt => exact .inr fun _ _ _ => rfl
          | gt => exact .inl ⟨next, false, rest, fun _ _ => rfl, .below rfl hkind⟩
          | eq =>
            obtain rfl := eq_of_compareIndent hcompare
            by_cases hdash : (!dash && startsWithMark .dash rest) = true
            · exact .inl ⟨next, true, rest, fun _ _ => if_pos hdash, .below rfl hkind⟩
            · exact .inr fun _ _ _ => (if_neg hdash).trans (if_neg hdash).symm

/-- Reads nothing and reports by its failure what block it is to read. -/
def reportingBlocks (report : List Char → Bool → List Token → DecodeFailure) (indent : List Char)
    (onlyDashes : Bool) : Parser :=
  ⟨fun tokens => .error (report indent onlyDashes tokens), fun h => nomatch h⟩

/-- An item holds one block only. -/
theorem HoldsBlock.unique (h : HoldsBlock indent dash tokens inner innerDashes rest)
    (h' : HoldsBlock indent dash tokens inner' innerDashes' rest') :
    inner' = inner ∧ innerDashes' = innerDashes ∧ rest' = rest := by
  -- For the first block the report is one failure, and for all others it is another one.
  have hreport := (h (inlineValue .start 0) (reportingBlocks fun i d r =>
    if i = inner ∧ d = innerDashes ∧ r = rest then .at .start .tooDeep
    else .at .start .unexpectedEnd)).symm.trans (h' _ _)
  simp only [reportingBlocks, true_and, if_true] at hreport
  by_contra hother
  rw [if_neg hother] at hreport
  cases hreport

/-- An item that holds a block is not read without its parser. -/
theorem HoldsBlock.exists_ne (h : HoldsBlock indent dash tokens inner innerDashes rest) :
    ∃ values blocks blocks',
      itemValue values blocks indent dash tokens ≠ itemValue values blocks' indent dash tokens := by
  refine ⟨inlineValue .start 0, reportingBlocks fun _ _ _ => .at .start .tooDeep,
    reportingBlocks fun _ _ _ => .at .start .unexpectedEnd, ?_⟩
  rw [h, h]
  exact fun heq => nomatch heq

/-- A block that an item holds is where blocks are. -/
theorem HoldsBlock.isBlockPlace (h : HoldsBlock indent dash tokens inner innerDashes rest) :
    IsBlockPlace indent dash tokens inner rest := by
  rcases itemValue_cases indent dash tokens with ⟨_, _, _, hholds, hplace⟩ | hnone
  · obtain ⟨rfl, -, rfl⟩ := h.unique hholds
    exact hplace
  · obtain ⟨values, blocks, blocks', hne⟩ := h.exists_ne
    exact absurd (hnone values blocks blocks') hne

/-- Parsers of blocks that agree on the block that an item holds read its value alike. -/
theorem itemValue_congr {blocks blocks' : List Char → Bool → Parser}
    (h : ∀ {inner innerDashes rest}, HoldsBlock indent dash tokens inner innerDashes rest →
      (blocks inner innerDashes).run rest = (blocks' inner innerDashes).run rest)
    (values : Parser) :
    itemValue values blocks indent dash tokens = itemValue values blocks' indent dash tokens := by
  rcases itemValue_cases indent dash tokens with ⟨_, _, _, hholds, -⟩ | hnone
  · rw [hholds, hholds, h hholds]
  · exact hnone values blocks blocks'

end Item

/-- The items of a block are read on at the given tokens, after items with the keys that have been
seen. The block starts with the first tokens, and so many levels may be opened inside it. -/
inductive ReachesItem (finish : Position) (depth : Nat) (indent : List Char) (onlyDashes : Bool)
    (first : List Token) : (seen : List String) → (tokens : List Token) → Prop
  | first : ReachesItem finish depth indent onlyDashes first [] first
  | next {seen tokens key? after value rest item next} :
      ReachesItem finish depth indent onlyDashes first seen tokens →
        itemStart? onlyDashes tokens = some (key?, after) →
        itemValue (inlineValue finish depth) (block finish depth) indent key?.isNone after =
          .ok (value, rest) →
        blockItem seen key? value = .ok item →
        continuation finish indent onlyDashes rest = .continued next →
          ReachesItem finish depth indent onlyDashes first (item.key.toList ++ seen) next

/-- While a document is read, a block of the given indentation is read that starts with the given
tokens, and so many levels may be opened from it on: the block of the document, or one that an item
of such a block holds. -/
inductive TokenStream.ReachesBlock (stream : TokenStream) :
    (depth : Nat) → (indent : List Char) → (onlyDashes : Bool) → (tokens : List Token) → Prop
  | document {indent tokens} : splitOpening stream.tokens = (indent, tokens) → tokens ≠ [] →
      ReachesBlock stream maxDepth indent false tokens
  | item {depth indent onlyDashes first seen tokens key? after inner innerDashes rest} :
      ReachesBlock stream (depth + 1) indent onlyDashes first →
        ReachesItem stream.finish depth indent onlyDashes first seen tokens →
        itemStart? onlyDashes tokens = some (key?, after) →
        HoldsBlock indent key?.isNone after inner innerDashes rest →
          ReachesBlock stream depth inner innerDashes rest

/-- The items of a block are read alike by parsers that agree on the blocks that they hold. -/
theorem ReachesItem.blockItems_congr {finish : Position} {depth : Nat} {indent : List Char}
    {onlyDashes : Bool} {first tokens : List Token} {seen : List String}
    {blocks : List Char → Bool → Parser}
    (h : ReachesItem finish depth indent onlyDashes first seen tokens)
    (hblocks : ∀ {seen tokens key? after inner innerDashes rest},
      ReachesItem finish depth indent onlyDashes first seen tokens →
        itemStart? onlyDashes tokens = some (key?, after) →
        HoldsBlock indent key?.isNone after inner innerDashes rest →
          (blocks inner innerDashes).run rest = (block finish depth inner innerDashes).run rest) :
    blockItems finish (inlineValue finish depth) blocks indent onlyDashes seen tokens =
      blockItems finish (inlineValue finish depth) (block finish depth) indent onlyDashes seen
        tokens := by
  have hsame {seen : List String} {tokens after : List Token} {key? : Option Key}
      (h : ReachesItem finish depth indent onlyDashes first seen tokens)
      (hstart : itemStart? onlyDashes tokens = some (key?, after)) :
      itemValue (inlineValue finish depth) blocks indent key?.isNone after =
        itemValue (inlineValue finish depth) (block finish depth) indent key?.isNone after :=
    itemValue_congr (hblocks h hstart) _
  fun_induction blockItems finish (inlineValue finish depth) (block finish depth) indent onlyDashes
    seen tokens with
  | case1 seen tokens hstart => rw [blockItems_eq, hstart]
  | case2 seen tokens key? after hstart failure hvalue =>
    exact blockItems_of_itemValue_error hstart ((hsame h hstart).trans hvalue)
  | case3 seen tokens key? after hstart value rest hvalue failure hitem =>
    rw [blockItems_eq, hstart]
    dsimp only
    rw [hsame h hstart, hvalue]
    dsimp only
    rw [hitem]
  | case4 seen tokens key? after hstart value rest hvalue item hitem failure hcont =>
    rw [blockItems_of_item hstart ((hsame h hstart).trans hvalue) hitem, hcont]
  | case5 seen tokens key? after hstart value rest hvalue item hitem rest' hcont =>
    rw [blockItems_of_item hstart ((hsame h hstart).trans hvalue) hitem, hcont]
  | case6 seen tokens key? after hstart value rest hvalue item hitem next hcont _ _ _ ih =>
    rw [blockItems_of_item hstart ((hsame h hstart).trans hvalue) hitem, hcont]
    exact congrArg (Except.map _) (ih (h.next hstart hvalue hitem hcont))

/-- Parsers that read blocks wherever blocks are reached read them as they are read. -/
theorem TokenStream.ReachesBlock.run_eq {stream : TokenStream}
    {parsers : Nat → List Char → Bool → Parser}
    (hzero : ∀ {indent onlyDashes tokens}, stream.ReachesBlock 0 indent onlyDashes tokens →
      (parsers 0 indent onlyDashes).run tokens = (tooDeepParser stream.finish).run tokens)
    (hsucc : ∀ {depth indent onlyDashes tokens},
      stream.ReachesBlock (depth + 1) indent onlyDashes tokens →
        (parsers (depth + 1) indent onlyDashes).run tokens =
          blockWith stream.finish (inlineValue stream.finish depth) (parsers depth) indent
            onlyDashes tokens)
    {depth : Nat} {indent : List Char} {onlyDashes : Bool} {tokens : List Token}
    (h : stream.ReachesBlock depth indent onlyDashes tokens) :
    (parsers depth indent onlyDashes).run tokens =
      (block stream.finish depth indent onlyDashes).run tokens := by
  induction depth generalizing indent onlyDashes tokens with
  | zero => exact hzero h
  | succ depth ih =>
    have hitems := ReachesItem.first.blockItems_congr fun hitem hstart hholds =>
      ih (h.item hitem hstart hholds)
    rw [hsucc h, blockWith, hitems]
    rfl

end NeonAudit
