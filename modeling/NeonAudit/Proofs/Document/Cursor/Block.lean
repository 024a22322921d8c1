import NeonAudit.Proofs.Document.Cursor.Inline
import NeonAudit.Proofs.Document.Lines

/-!
# Walks over blocks

A cursor reads blocks as the parsers read them that hand tokens on. As for inline values each
function of the cursor is compared with the one it stands for, and a block with less fuel reads the
blocks inside it, which have fewer tokens.
-/

namespace NeonAudit.Cursor

variable {stream : TokenStream} {short : Prop} {depth : Nat} {tokens : List Token}
  {indent : List Char} {onlyDashes : Bool}

/-- The start of an item is taken, if there is one. -/
theorem ensures_takeStart {fails : DecodeFailure → Prop} :
    Ensures stream short depth tokens (takeStart onlyDashes)
      (fun start rest => start = (itemStart? onlyDashes tokens).map Prod.fst ∧
        rest = (itemStart? onlyDashes tokens).elim tokens Prod.snd) fails := by
  refine .observe (observes_atMark .dash) ?_
  cases tokens with
  | nil =>
    refine .observe (observes_atKey _) ?_
    simp only [splitKey?, Option.isSome_none, Bool.and_false, Bool.false_eq_true, if_false]
    exact .pure ⟨rfl, rfl⟩
  | cons token rest =>
    split
    · rename_i hdash
      have hstart : itemStart? onlyDashes (token :: rest) = some (none, rest) :=
        if_pos (of_decide_eq_true hdash)
      rw [hstart]
      exact .advance (.pure ⟨rfl, rfl⟩)
    · rename_i hdash
      have hstart : itemStart? onlyDashes (token :: rest) =
          if onlyDashes then none
          else (splitKey? [.colon] (token :: rest)).map fun found => (some found.1, found.2) :=
        if_neg (of_decide_eq_false (eq_false_of_ne_true hdash))
      refine .observe (observes_atKey _) ?_
      rw [hstart]
      cases onlyDashes with
      | true => exact .pure ⟨rfl, rfl⟩
      | false =>
        cases hkey : splitKey? [.colon] (token :: rest) with
        | none => exact .pure ⟨rfl, rfl⟩
        | some found =>
          obtain ⟨key, after⟩ := found
          refine .bind (.takeKey hkey) (fun _ h => h) fun key' after' hafter => ?_
          obtain ⟨rfl, rfl⟩ := hafter
          exact .pure ⟨rfl, rfl⟩

/-- Indentations are compared where they can be. -/
theorem ensures_compareLine (next indent : List Char) :
    Ensures stream short depth tokens (compareLine next indent)
      (fun ordering rest => compareIndent next indent = some ordering ∧ rest = tokens)
      fun failure => compareIndent next indent = none ∧
        failure = .at (headPosition stream.finish tokens) .mixedIndentation := by
  unfold compareLine
  cases compareIndent next indent with
  | none => exact .fail ⟨rfl, rfl⟩
  | some ordering => exact .pure ⟨rfl, rfl⟩

/-- A token that is no line break has no indentation. -/
theorem frontIndent?_eq_none {token : Token} (h : token.isLineBreak = false) (rest : List Token) :
    frontIndent? (token :: rest) = none := by
  unfold Token.isLineBreak at h
  unfold frontIndent?
  rw [List.head?_cons, Option.bind_some]
  cases hkind : token.kind with
  | lineBreak indent =>
    rw [hkind] at h
    contradiction
  | _ => rfl

/-- The indentation of a line break is the one it holds. -/
theorem frontIndent?_of_lineBreak {token : Token} {next : List Char}
    (h : token.kind = .lineBreak next) (rest : List Token) :
    frontIndent? (token :: rest) = some next := by
  rw [frontIndent?, List.head?_cons, Option.bind_some, h]

section Item

variable {value : Walk Value} {block : List Char → Bool → Walk Value} {values : Parser}
  {blocks : List Char → Bool → Parser}

/-- The walks read blocks, wherever at most so many tokens are left. -/
def ReadsBlocks (stream : TokenStream) (short : Prop) (depth bound : Nat)
    (block : List Char → Bool → Walk Value) (blocks : List Char → Bool → Parser) : Prop :=
  ∀ indent onlyDashes,
    ReadsWithin stream short depth bound (block indent onlyDashes) (blocks indent onlyDashes)

/-- The value of an item that nothing follows on its line is read. -/
theorem reads_valueBelow {lineBreak : Token} {rest : List Token} {next : List Char}
    (hkind : lineBreak.kind = .lineBreak next)
    (hblock : ReadsBlocks stream short depth rest.length block blocks) (dash : Bool) :
    Reads stream short depth (lineBreak :: rest) (valueBelow block indent dash next)
      (itemValue values blocks indent dash (lineBreak :: rest)) := by
  refine .observe observes_beforeEnd ?_
  rw [itemValue, hkind]
  dsimp only
  rw [List.tail_cons]
  split
  · exact .pure rfl
  · refine .bind (ensures_compareLine next indent) (fun failure hfailure => ?_) ?_
    · obtain ⟨hnone, rfl⟩ := hfailure
      rw [hnone]
      rfl
    · intro ordering tokens hordering
      obtain ⟨hsome, rfl⟩ := hordering
      rw [hsome]
      cases ordering with
      | lt => exact .pure rfl
      | gt => exact .advance (hblock next false rest (Nat.le_refl _))
      | eq =>
        refine .observe (observes_beforeMark .dash) ?_
        dsimp only
        rw [List.tail_cons]
        split
        · exact .advance (hblock indent true rest (Nat.le_refl _))
        · exact .pure rfl

/-- The value of an item is read. -/
theorem reads_valueAfter (hvalue : ReadsWithin stream short depth tokens.length value values)
    (hblock : ReadsBlocks stream short depth tokens.length block blocks) (dash : Bool) :
    Reads stream short depth tokens (valueAfter value block indent dash)
      (itemValue values blocks indent dash tokens) := by
  refine .observe observes_atEnd (.observe observes_atLineBreak ?_)
  cases tokens with
  | nil => exact .observe observes_lineIndent? (.pure rfl)
  | cons token rest =>
    cases hbreak : token.isLineBreak with
    | true =>
      obtain ⟨next, hkind⟩ := Token.exists_of_isLineBreak hbreak
      have hbelow : Reads stream short depth (token :: rest) (valueBelow block indent dash next)
          (itemValue values blocks indent dash (token :: rest)) :=
        reads_valueBelow hkind
          (fun indent onlyDashes => (hblock indent onlyDashes).mono (Nat.le_succ _)) dash
      rw [List.head?_cons, Option.any_some, hbreak, Bool.or_true, if_pos rfl]
      refine .observe observes_lineIndent? ?_
      rw [frontIndent?_of_lineBreak hkind]
      exact hbelow
    | false =>
      rw [List.head?_cons, Option.any_some, hbreak, List.isEmpty_cons, Bool.or_false,
        if_neg Bool.false_ne_true, itemValue_of_isLineBreak hbreak]
      refine .observe (observes_atKey _) (.observe (observes_atMark .dash) ?_)
      rw [opensBlock]
      split
      · refine .observe observes_position ?_
        exact hblock _ false (token :: rest) (Nat.le_refl _)
      · exact hvalue (token :: rest) (Nat.le_refl _)

/-- A line break before an item, or the end of the block, is read. -/
theorem ensures_continues :
    Ensures stream short depth tokens (continues indent onlyDashes)
      (fun more rest => continuation stream.finish indent onlyDashes tokens =
        if more then .continued rest else .ended rest)
      fun failure => continuation stream.finish indent onlyDashes tokens = .broken failure := by
  refine .observe observes_atEnd (.observe observes_atLineBreak (.observe observes_beforeEnd ?_))
  cases tokens with
  | nil => exact .pure rfl
  | cons token rest =>
    rw [List.isEmpty_cons, Bool.false_or, List.head?_cons, Option.any_some, List.tail_cons]
    cases hbreak : token.isLineBreak with
    | false =>
      rw [Bool.false_and, if_neg Bool.false_ne_true]
      refine .observe observes_lineIndent? ?_
      rw [frontIndent?_eq_none hbreak, continuation_of_isLineBreak hbreak]
      exact .unexpectedToken rfl
    | true =>
      obtain ⟨next, hkind⟩ := Token.exists_of_isLineBreak hbreak
      rw [Bool.true_and, continuation, hkind]
      dsimp only
      split
      · exact .pure rfl
      · refine .observe observes_lineIndent? ?_
        rw [frontIndent?_of_lineBreak hkind]
        refine .bind (ensures_compareLine next indent) (fun failure hfailure => ?_) ?_
        · obtain ⟨hnone, rfl⟩ := hfailure
          rw [hnone]
          rfl
        · intro ordering tokens hordering
          obtain ⟨hsome, rfl⟩ := hordering
          rw [hsome]
          cases ordering with
          | lt => exact .pure rfl
          | gt => exact .fail rfl
          | eq =>
            refine .observe (observes_beforeMark .dash) ?_
            dsimp only
            rw [List.tail_cons]
            split
            · exact .pure rfl
            · exact .advance (.pure rfl)

/-- A block, from the items that have been read before. -/
def blockRest (finish : Position) (values : Parser) (blocks : List Char → Bool → Parser)
    (indent : List Char) (onlyDashes : Bool) (builder : Builder) (tokens : List Token) :
    Parsed Value :=
  if builder.items.isEmpty && !onlyDashes && (itemStart? onlyDashes tokens).isNone then
    values.run tokens
  else
    collected false
      ((blockItems finish values blocks indent onlyDashes builder.seen tokens).map
        fun (items, rest) => (builder.items ++ items, rest))

/-- With one more item before, one less is to be read. -/
theorem blockRest_add (finish : Position) (builder : Builder) (item : Item) (tokens : List Token) :
    blockRest finish values blocks indent onlyDashes (builder.add item) tokens =
      collected false
        ((blockItems finish values blocks indent onlyDashes (item.key.toList ++ builder.seen)
          tokens).map fun (items, rest) => (builder.items ++ item :: items, rest)) := by
  have hitems : (builder.add item).items.isEmpty = false := by simp [Builder.add]
  rw [blockRest, hitems, Bool.false_and, Bool.false_and, if_neg Bool.false_ne_true]
  simp only [Builder.add, List.append_assoc, List.singleton_append]

/-- Without items before, all of the block is to be read. -/
theorem blockRest_empty (finish : Position) (tokens : List Token) :
    blockRest finish values blocks indent onlyDashes .empty tokens =
      NeonAudit.blockWith finish values blocks indent onlyDashes tokens := by
  rw [blockRest, NeonAudit.blockWith, Builder.empty]
  cases blockItems finish values blocks indent onlyDashes [] tokens <;> rfl

/-- A turn of a block reads an item with what follows it, or the value that the block is. -/
theorem turns_blockTurn (hvalue : ReadsWithin stream short depth tokens.length value values)
    (hblock : ∀ bound < tokens.length, ReadsBlocks stream short depth bound block blocks)
    (builder : Builder) :
    Turns stream short depth (blockRest stream.finish values blocks indent onlyDashes)
      (blockTurn value block indent onlyDashes) builder tokens := by
  refine .bind ensures_takeStart (fun _ h => h) fun start after hafter => ?_
  cases hstart : itemStart? onlyDashes tokens with
  | none =>
    rw [hstart, Option.map_none, Option.elim_none] at hafter
    obtain ⟨rfl, rfl⟩ := hafter
    have hrest : blockRest stream.finish values blocks indent onlyDashes builder after =
        if builder.items.isEmpty && !onlyDashes then values.run after
        else .error (unexpected stream.finish after) := by
      rw [blockRest, hstart, Option.isNone_none, Bool.and_true, blockItems_eq, hstart]
      rfl
    dsimp only
    split
    · rename_i hempty
      rw [if_pos hempty] at hrest
      refine .bind (hvalue after (Nat.le_refl _)) (fun failure hfailure => ?_) ?_
      · rw [hrest, hfailure]
      · intro result rest hresult
        exact .pure (hrest.trans hresult)
    · rename_i hempty
      rw [if_neg hempty] at hrest
      exact .unexpectedToken hrest
  | some found =>
    obtain ⟨key?, after⟩ := found
    rw [hstart, Option.map_some, Option.elim_some] at hafter
    obtain ⟨rfl, rfl⟩ := hafter
    have hafter := (suffix_of_itemStart? hstart).2
    have hitems : blockRest stream.finish values blocks indent onlyDashes builder tokens =
        collected false
          ((blockItems stream.finish values blocks indent onlyDashes builder.seen tokens).map
            fun (items, rest) => (builder.items ++ items, rest)) := by
      rw [blockRest, hstart, Option.isNone_some, Bool.and_false, if_neg Bool.false_ne_true]
    rw [blockItems_eq, hstart] at hitems
    dsimp only at hitems
    refine .bind (reads_valueAfter (hvalue.mono (Nat.le_of_lt hafter)) (hblock _ hafter) _)
      (fun failure hfailure => ?_) fun result rest hresult => ?_
    · rw [hitems, hfailure]
      rfl
    have hrest := (suffix_of_itemValue hresult).length_le
    rw [hresult] at hitems
    dsimp only at hitems
    refine .bind (ensures_push builder key? result) (fun failure hfailure => ?_) ?_
    · rw [hitems, hfailure]
      rfl
    intro pushed rest' hpushed
    obtain ⟨rfl, item, hitem, rfl⟩ := hpushed
    rw [hitem] at hitems
    dsimp only at hitems
    refine .bind ensures_continues (fun failure hfailure => ?_) fun more next hnext => ?_
    · rw [hitems, hfailure]
      rfl
    rw [hnext] at hitems
    cases more with
    | true =>
      have hnext' := (suffix_of_continuation (.inr hnext)).length_le
      refine .pure ⟨by omega, ?_⟩
      rw [blockRest_add, hitems, if_pos rfl]
      dsimp only
      cases blockItems _ _ _ _ _ _ next <;> rfl
    | false =>
      refine .ofResult_bind (fun result hresult => .pure ?_) fun failure hfailure => ?_
      · rw [IsTurn, hitems]
        exact congrArg (Except.map _) hresult
      · rw [hitems]
        exact congrArg (Except.map _) hfailure

end Item

/-- Blocks are read as deep as the levels that may still be opened. -/
theorem reads_block (fuel depth bound : Nat) :
    ReadsBlocks stream (fuel ≤ bound + 1) depth bound (block fuel)
      (NeonAudit.block stream.finish (maxDepth - depth)) := by
  -- A block may be an inline value with the same tokens, so it needs one unit of fuel more than one.
  induction fuel generalizing depth bound with
  | zero => exact fun _ _ _ _ _ _ => .unfinished (Nat.zero_le _)
  | succ fuel ih =>
    intro indent onlyDashes tokens hbound
    refine .nested (fun hdepth => ?_) fun hdeep => ?_
    · obtain ⟨inner, hinner⟩ := Nat.exists_eq_add_one.2 (show 0 < maxDepth - depth by omega)
      rw [hinner]
      obtain rfl : inner = maxDepth - (depth + 1) := by omega
      have hread : Reads stream (fuel + 1 ≤ bound + 1) (depth + 1) tokens
          (iterate (blockTurn (value fuel) (block fuel) indent onlyDashes) fuel .empty)
          (blockRest stream.finish (inlineValue stream.finish (maxDepth - (depth + 1)))
            (NeonAudit.block stream.finish (maxDepth - (depth + 1))) indent onlyDashes .empty
            tokens) := by
        refine Turns.iterate (fun builder left hleft => turns_blockTurn
          (fun within hwithin => ?_) (fun less hless indent' onlyDashes' within hwithin => ?_)
          builder) fun hturns => by omega
        · exact (reads_value fuel (depth + 1) within).mono fun hshort => by omega
        · exact (ih (depth + 1) less indent' onlyDashes' within hwithin).mono
            fun hshort => by omega
      rwa [blockRest_empty] at hread
    · rw [Nat.sub_eq_zero_of_le hdeep]
      rfl

end NeonAudit.Cursor
