import NeonAudit.Proofs.Document.Lines

/-!
# Tokens in another place

What tokens are read as depends on their kinds, on how the indentations of lines compare, and on how
far to the right of its line's indentation a token stands. So it does not change when all tokens are
moved to other lines, when every line gets the same text before its indentation and every token
moves to the right by its length, and when tokens are spelled differently. Only the failures tell
the difference, as they name places and spellings.
-/

namespace NeonAudit

/-- A change of where tokens stand and of how they are spelled, with text that comes before the
indentation of every line. -/
structure Shift where
  /-- Where a token comes to stand. -/
  place : Position → Position
  /-- The text before every indentation. -/
  indent : List Char
  /-- How a token comes to be spelled. -/
  spell : String → String
  /-- All tokens move to the right by the text before the indentation. -/
  column_place : ∀ p, (place p).column = p.column + indent.length

namespace Shift

variable (s : Shift)

/-- What a token becomes: a line break gets a longer indentation. -/
def kind : Token.Kind → Token.Kind
  | .lineBreak indent => .lineBreak (s.indent ++ indent)
  | kind => kind

/-- A token in its other place. -/
def token (token : Token) : Token :=
  ⟨s.kind token.kind, s.spell token.text, s.place token.position⟩

/-- Tokens in their other places. -/
def tokens (tokens : List Token) : List Token :=
  tokens.map s.token

/-- A cause, which may state the spelling of a token. -/
def cause : DecodeError.Cause → DecodeError.Cause
  | .unexpected text => .unexpected (s.spell text)
  | cause => cause

/-- A failure in its other place. -/
def failure : DecodeFailure → DecodeFailure
  | .malformed error => .malformed ⟨s.cause error.cause, s.place error.position⟩
  | .fault fault => .fault fault

/-- A key in its other place. -/
def key (key : Key) : Key :=
  ⟨key.name, s.place key.position⟩

/-- What reading results in when tokens are in their other places. -/
def parsed {α : Type} : Parsed α → Parsed α
  | .error failure => .error (s.failure failure)
  | .ok (result, rest) => .ok (result, s.tokens rest)

/-- The second parser reads tokens in their other places as the first one reads them. -/
def Commutes (parser shifted : Parser) : Prop :=
  ∀ tokens, shifted.run (s.tokens tokens) = s.parsed (parser.run tokens)

@[simp] theorem parsed_ok {α : Type} (result : α) (rest : List Token) :
    s.parsed (.ok (result, rest)) = .ok (result, s.tokens rest) := rfl

@[simp] theorem tokens_nil : s.tokens [] = [] := rfl

@[simp] theorem tokens_cons (token : Token) (rest : List Token) :
    s.tokens (token :: rest) = s.token token :: s.tokens rest := rfl

@[simp] theorem isEmpty_tokens (tokens : List Token) : (s.tokens tokens).isEmpty = tokens.isEmpty :=
  List.isEmpty_map

/-- A result that is changed changes in its other place too. -/
theorem parsed_map {α β : Type} (f : α → β) (result : Parsed α) :
    (s.parsed result).map (fun (a, rest) => (f a, rest)) =
      s.parsed (result.map fun (a, rest) => (f a, rest)) := by
  cases result <;> rfl

/-- Collected items are collected in their other place. -/
theorem parsed_collected (preferMapping : Bool) (read : Parsed (List Item)) :
    collected preferMapping (s.parsed read) = s.parsed (collected preferMapping read) := by
  cases read with
  | error failure => rfl
  | ok pair =>
    obtain ⟨items, rest⟩ := pair
    rw [parsed_ok, collected, collected]
    cases hcollect : Item.collect preferMapping items with
    | ok value => rfl
    | error failure =>
      -- the only failure is a fault, which names no place
      obtain ⟨rfl, -⟩ := Item.failure_of_collect hcollect
      rfl

/-- The same kinds of token are line breaks. -/
@[simp] theorem isLineBreak_token (token : Token) :
    (s.token token).isLineBreak = token.isLineBreak := by
  unfold Token.isLineBreak Shift.token
  cases token.kind <;> rfl

/-- A line break gets a longer indentation. -/
theorem kind_token_of_lineBreak {token : Token} {indent : List Char}
    (h : token.kind = .lineBreak indent) :
    (s.token token).kind = .lineBreak (s.indent ++ indent) := by
  rw [Shift.token, h]
  rfl

/-- The same tokens are marks. -/
@[simp] theorem kind_token_eq_mark (token : Token) (mark : Mark) :
    (s.token token).kind = .mark mark ↔ token.kind = .mark mark := by
  unfold Shift.token
  cases token.kind <;> simp [kind]

/-- The same tokens can be keys. -/
@[simp] theorem key?_token (token : Token) : (s.token token).key? = token.key? := by
  unfold Token.key? Shift.token
  cases token.kind <;> rfl

/-- The same marks stand at the front. -/
@[simp] theorem startsWithMark_tokens (mark : Mark) (tokens : List Token) :
    startsWithMark mark (s.tokens tokens) = startsWithMark mark tokens := by
  cases tokens with
  | nil => rfl
  | cons token rest => simp [startsWithMark]

/-- The same line breaks are skipped. -/
@[simp] theorem skipLineBreaks_tokens (tokens : List Token) :
    skipLineBreaks (s.tokens tokens) = s.tokens (skipLineBreaks tokens) := by
  have hsame : Token.isLineBreak ∘ s.token = Token.isLineBreak := funext s.isLineBreak_token
  rw [skipLineBreaks, Shift.tokens, List.dropWhile_map, hsame]
  rfl

/-- Finding the first token where it cannot stand fails in its other place. -/
theorem unexpected_tokens (finish : Position) (tokens : List Token) :
    unexpected (s.place finish) (s.tokens tokens) = s.failure (unexpected finish tokens) := by
  cases tokens with
  | nil => rfl
  | cons token rest =>
    rw [tokens_cons, unexpected, unexpected, Shift.token]
    cases token.kind <;> rfl

/-- The same key is at the front. -/
theorem splitKey?_tokens (separators : List Mark) (tokens : List Token) :
    splitKey? separators (s.tokens tokens) =
      (splitKey? separators tokens).map fun (key, rest) => (s.key key, s.tokens rest) := by
  match tokens with
  | [] => rfl
  | [_] => rfl
  | token :: separator :: rest =>
    rw [tokens_cons, tokens_cons, splitKey?, splitKey?, key?_token]
    cases token.key? with
    | none => rfl
    | some name =>
      rw [Shift.token]
      cases separator.kind with
      | mark mark =>
        by_cases hmark : mark ∈ separators
        · simp [kind, hmark]
          rfl
        · simp [kind, hmark]
      | _ => rfl

section Inline

variable {s} {finish : Position} {values shifted : Parser}

/-- What follows an item in its other place. -/
def separation (s : Shift) : Separation → Separation
  | .closed rest => .closed (s.tokens rest)
  | .separated rest => .separated (s.tokens rest)
  | .missing rest => .missing (s.tokens rest)

/-- The same separation follows an item. -/
theorem separation_tokens (s : Shift) (close : Mark) (tokens : List Token) :
    NeonAudit.separation close (s.tokens tokens) =
      s.separation (NeonAudit.separation close tokens) := by
  have hhead : (s.tokens tokens).head?.any Token.isLineBreak =
      tokens.head?.any Token.isLineBreak := by
    cases tokens <;> simp
  rw [NeonAudit.separation, NeonAudit.separation, skipLineBreaks_tokens, hhead]
  cases skipLineBreaks tokens with
  | nil => rfl
  | cons token rest =>
    simp only [tokens_cons, kind_token_eq_mark]
    split
    · rfl
    · split
      · rfl
      · split <;> rfl

/-- The same keyed item is read. -/
theorem keyedItem_key (s : Shift) (seen : List String) (key : Key) (value : Value)
    (rest : List Token) :
    keyedItem seen (s.key key) value (s.tokens rest) =
      s.parsed (keyedItem seen key value rest) := by
  unfold keyedItem
  by_cases hseen : key.name ∈ seen
  · rw [if_pos hseen]
    exact if_pos hseen
  · rw [if_neg hseen]
    exact if_neg hseen

/-- The same item in brackets is read. -/
theorem Commutes.inlineItem (h : s.Commutes values shifted) (close : Mark) (seen : List String)
    (tokens : List Token) :
    inlineItem shifted close seen (s.tokens tokens) =
      s.parsed (inlineItem values close seen tokens) := by
  have hends (after : List Token) : endsItem close (s.tokens after) = endsItem close after := by
    cases after <;> simp [endsItem]
  rw [NeonAudit.inlineItem, NeonAudit.inlineItem, splitKey?_tokens]
  cases splitKey? [.colon, .equals] tokens with
  | none =>
    dsimp only [Option.map_none]
    rw [h, parsed_map]
  | some found =>
    obtain ⟨key, after⟩ := found
    dsimp only [Option.map_some]
    rw [hends, h]
    split
    · exact keyedItem_key s seen key .null after
    · cases values.run after with
      | error failure => rfl
      | ok result => exact keyedItem_key s seen key result.1 result.2

/-- The same items in brackets are read. -/
theorem Commutes.inlineItems (h : s.Commutes values shifted) (finish : Position) (close : Mark)
    (seen : List String) (tokens : List Token) :
    inlineItems (s.place finish) shifted close seen (s.tokens tokens) =
      s.parsed (inlineItems finish values close seen tokens) := by
  have hstarts {tokens : List Token}
      (hfront : ¬startsWithMark close (skipLineBreaks tokens) = true) :
      startsWithMark close (skipLineBreaks (s.tokens tokens)) = false := by
    rwa [skipLineBreaks_tokens, startsWithMark_tokens, ← Bool.not_eq_true]
  have hread {seen : List String} {tokens : List Token} {result : Parsed Item}
      (hitem : NeonAudit.inlineItem values close seen (skipLineBreaks tokens) = result) :
      NeonAudit.inlineItem shifted close seen (skipLineBreaks (s.tokens tokens)) =
        s.parsed result := by
    rw [skipLineBreaks_tokens, h.inlineItem, hitem]
  fun_induction NeonAudit.inlineItems finish values close seen tokens with
  | case1 seen tokens front hfront =>
    rw [inlineItems_of_close, skipLineBreaks_tokens]
    · exact congrArg (fun rest => Except.ok ([], rest)) List.map_tail.symm
    · rw [skipLineBreaks_tokens, startsWithMark_tokens]
      exact hfront
  | case2 seen tokens front hfront failure hitem =>
    exact inlineItems_of_item_error (hstarts hfront) (hread hitem)
  | case3 seen tokens front hfront item rest hitem rest' hsep =>
    rw [inlineItems_of_item (hstarts hfront) (hread hitem), separation_tokens, hsep]
    rfl
  | case4 seen tokens front hfront item rest hitem rest' hsep =>
    rw [inlineItems_of_item (hstarts hfront) (hread hitem), separation_tokens, hsep]
    exact congrArg Except.error (s.unexpected_tokens finish rest')
  | case5 seen tokens front hfront item rest hitem next hsep _ _ _ ih =>
    rw [inlineItems_of_item (hstarts hfront) (hread hitem), separation_tokens, hsep]
    dsimp only [separation]
    rw [ih, parsed_map]

variable {values? shifted? : Option Parser}

/-- The same collection in brackets is read. -/
theorem bracketed_tokens (h : Option.Rel s.Commutes values? shifted?) (finish : Position)
    (bracket : Bracket) (position : Position) (tokens : List Token) :
    bracketed (s.place finish) shifted? bracket (s.place position) (s.tokens tokens) =
      s.parsed (bracketed finish values? bracket position tokens) := by
  cases h with
  | none => rfl
  | some h =>
    rw [bracketed, bracketed, h.inlineItems, parsed_collected]

/-- The same literal with arguments is at the front. -/
theorem splitLink?_tokens (s : Shift) (tokens : List Token) :
    splitLink? (s.tokens tokens) =
      (splitLink? tokens).map fun (raw, position, rest) =>
        (raw, s.place position, s.tokens rest) := by
  match tokens with
  | [] => rfl
  | [_] => rfl
  | token :: paren :: rest =>
    rw [tokens_cons, tokens_cons, splitLink?, splitLink?]
    simp only [kind_token_eq_mark]
    unfold Shift.token
    cases token.kind with
    | literal raw =>
      by_cases hparen : paren.kind = .mark .openParen
      · simp [kind, hparen]
      · simp [kind, hparen]
    | _ => rfl

/-- Reading a literal fails in its other place. -/
theorem failure_of_literalValue (s : Shift) {raw : String} {failure : DecodeFailure}
    (h : literalValue raw = .error failure) : s.failure failure = failure := by
  unfold literalValue at h
  cases hraw : Value.ofLiteral raw with
  | error fault =>
    rw [hraw] at h
    cases h
    rfl
  | ok value =>
    rw [hraw] at h
    contradiction

/-- The same links of a chain are read. -/
theorem entityLinks_tokens (h : Option.Rel s.Commutes values? shifted?) (finish : Position)
    (name : Value) (position : Position) (tokens : List Token) :
    entityLinks (s.place finish) shifted? name (s.place position) (s.tokens tokens) =
      s.parsed (entityLinks finish values? name position tokens) := by
  fun_induction entityLinks finish values? name position tokens with
  | case1 name position tokens failure hargs =>
    rw [entityLinks_eq, bracketed_tokens h, hargs]
    rfl
  | case2 name position tokens arguments rest hargs hlink =>
    rw [entityLinks_eq, bracketed_tokens h, hargs, parsed_ok]
    dsimp only
    rw [splitLink?_tokens, hlink]
    rfl
  | case3 name position tokens arguments rest hargs raw position' after hlink failure hraw =>
    rw [entityLinks_eq, bracketed_tokens h, hargs, parsed_ok]
    dsimp only
    rw [splitLink?_tokens, hlink]
    dsimp only [Option.map_some]
    rw [hraw]
    exact congrArg Except.error (s.failure_of_literalValue hraw).symm
  | case4 name position tokens arguments rest hargs raw position' after hlink next hraw _ _ ih =>
    rw [entityLinks_eq, bracketed_tokens h, hargs, parsed_ok]
    dsimp only
    rw [splitLink?_tokens, hlink]
    dsimp only [Option.map_some]
    rw [hraw]
    dsimp only
    rw [ih, parsed_map]

/-- The same value without arguments is read. -/
theorem plainValue_tokens (h : Option.Rel s.Commutes values? shifted?) (finish : Position)
    (tokens : List Token) :
    plainValue (s.place finish) shifted? (s.tokens tokens) =
      s.parsed (plainValue finish values? tokens) := by
  cases tokens with
  | nil => rfl
  | cons token rest =>
    have hunexpected := s.unexpected_tokens finish (token :: rest)
    rw [tokens_cons] at hunexpected
    rw [tokens_cons, plainValue, plainValue, hunexpected]
    unfold Shift.token
    cases token.kind with
    | string text => rfl
    | literal raw =>
      cases hraw : literalValue raw with
      | error failure => 
        simp [kind, hraw, Except.map, parsed, s.failure_of_literalValue hraw]
      | ok value => simp [kind, hraw, Except.map, parsed]
    | mark mark =>
      cases mark with
      | openSquare => exact bracketed_tokens h finish .square token.position rest
      | openBrace => exact bracketed_tokens h finish .brace token.position rest
      | _ => rfl
    | lineBreak indent => rfl

/-- The same arguments are opened at the front. -/
theorem splitArguments?_tokens (s : Shift) (tokens : List Token) :
    splitArguments? (s.tokens tokens) =
      (splitArguments? tokens).map fun (position, rest) => (s.place position, s.tokens rest) := by
  cases tokens with
  | nil => rfl
  | cons token rest =>
    rw [tokens_cons, splitArguments?, splitArguments?]
    simp only [kind_token_eq_mark]
    split <;> rfl

/-- The same value is read. -/
theorem valueWith_tokens (h : Option.Rel s.Commutes values? shifted?) (finish : Position)
    (tokens : List Token) :
    valueWith (s.place finish) shifted? (s.tokens tokens) =
      s.parsed (valueWith finish values? tokens) := by
  rw [valueWith, valueWith, plainValue_tokens h]
  cases plainValue finish values? tokens with
  | error failure => rfl
  | ok result =>
    obtain ⟨value, rest⟩ := result
    rw [parsed_ok]
    dsimp only
    rw [splitArguments?_tokens]
    cases splitArguments? rest with
    | none => rfl
    | some found =>
      obtain ⟨position, after⟩ := found
      dsimp only [Option.map_some]
      rw [entityLinks_tokens h, parsed_map]

end Inline

/-- Inline values are read alike in their other places. -/
theorem inlineValue_commutes (finish : Position) (depth : Nat) :
    s.Commutes (inlineValue finish depth) (inlineValue (s.place finish) depth) := by
  induction depth with
  | zero => exact valueWith_tokens .none finish
  | succ depth ih => exact valueWith_tokens (.some ih) finish

section Block

variable {s} {finish : Position} {values shifted : Parser}
  {blocks shiftedBlocks : List Char → Bool → Parser}

/-- Text before two indentations does not matter for how they compare. -/
theorem compareIndent_append_left (front indent base : List Char) :
    compareIndent (front ++ indent) (front ++ base) = compareIndent indent base := by
  have hprefix (first second : List Char) :
      (front ++ first).isPrefixOf (front ++ second) = first.isPrefixOf second := by
    rw [Bool.eq_iff_iff, List.isPrefixOf_iff_prefix, List.isPrefixOf_iff_prefix]
    exact List.prefix_append_right_inj front
  rw [compareIndent, compareIndent, hprefix, hprefix]
  simp only [List.append_cancel_left_eq]

/-- The same item starts at the front. -/
theorem itemStart?_tokens (s : Shift) (onlyDashes : Bool) (tokens : List Token) :
    itemStart? onlyDashes (s.tokens tokens) =
      (itemStart? onlyDashes tokens).map fun (key?, rest) => (key?.map s.key, s.tokens rest) := by
  cases tokens with
  | nil => rfl
  | cons token rest =>
    have hkey := s.splitKey?_tokens [.colon] (token :: rest)
    rw [tokens_cons] at hkey
    rw [tokens_cons, itemStart?, itemStart?]
    simp only [kind_token_eq_mark, hkey]
    split
    · rfl
    · split
      · rfl
      · cases splitKey? [.colon] (token :: rest) <;> rfl

/-- The same tokens open a block. -/
theorem opensBlock_tokens (s : Shift) (tokens : List Token) :
    opensBlock (s.tokens tokens) = opensBlock tokens := by
  rw [opensBlock, opensBlock, splitKey?_tokens, startsWithMark_tokens, Option.isSome_map]

/-- An inner block is indented as far from the outer one. -/
theorem innerIndent_place (s : Shift) (indent : List Char) (p : Position) :
    innerIndent (s.indent ++ indent) (s.place p).column =
      s.indent ++ innerIndent indent p.column := by
  have hcolumn : p.column + s.indent.length - 1 - (s.indent.length + indent.length) =
      p.column - 1 - indent.length := by omega
  rw [innerIndent, innerIndent, s.column_place, List.length_append, hcolumn, List.append_assoc]

/-- The blocks inside are read alike in their other places. -/
def CommuteBlocks (s : Shift) (blocks shiftedBlocks : List Char → Bool → Parser) : Prop :=
  ∀ indent onlyDashes, s.Commutes (blocks indent onlyDashes)
    (shiftedBlocks (s.indent ++ indent) onlyDashes)

/-- The same value of an item is read. -/
theorem itemValue_tokens (hvalues : s.Commutes values shifted)
    (hblocks : s.CommuteBlocks blocks shiftedBlocks) (indent : List Char) (dash : Bool)
    (tokens : List Token) :
    itemValue shifted shiftedBlocks (s.indent ++ indent) dash (s.tokens tokens) =
      s.parsed (itemValue values blocks indent dash tokens) := by
  cases tokens with
  | nil => rfl
  | cons token rest =>
    cases hbreak : token.isLineBreak with
    | true =>
      obtain ⟨next, hkind⟩ := Token.exists_of_isLineBreak hbreak
      rw [tokens_cons, itemValue, itemValue, s.kind_token_of_lineBreak hkind, hkind]
      dsimp only
      rw [compareIndent_append_left, isEmpty_tokens, startsWithMark_tokens]
      split
      · rfl
      · cases compareIndent next indent with
        | none => rfl
        | some order =>
          cases order with
          | gt => exact hblocks next false rest
          | eq =>
            dsimp only
            split
            · exact hblocks indent true rest
            · rfl
          | lt => rfl
    | false =>
      rw [itemValue_of_isLineBreak hbreak, tokens_cons, itemValue_of_isLineBreak (by simpa),
        ← tokens_cons, opensBlock_tokens]
      split
      · rw [Shift.token, innerIndent_place]
        exact hblocks _ false (token :: rest)
      · exact hvalues (token :: rest)

/-- What follows an item of a block in its other place. -/
def continuation (s : Shift) : Continuation → Continuation
  | .ended rest => .ended (s.tokens rest)
  | .continued rest => .continued (s.tokens rest)
  | .broken failure => .broken (s.failure failure)

/-- The same continuation follows an item. -/
theorem continuation_tokens (s : Shift) (finish : Position) (indent : List Char)
    (onlyDashes : Bool) (tokens : List Token) :
    NeonAudit.continuation (s.place finish) (s.indent ++ indent) onlyDashes (s.tokens tokens) =
      s.continuation (NeonAudit.continuation finish indent onlyDashes tokens) := by
  cases tokens with
  | nil => rfl
  | cons token rest =>
    cases hbreak : token.isLineBreak with
    | true =>
      obtain ⟨next, hkind⟩ := Token.exists_of_isLineBreak hbreak
      rw [tokens_cons, NeonAudit.continuation, NeonAudit.continuation,
        s.kind_token_of_lineBreak hkind, hkind]
      dsimp only
      rw [compareIndent_append_left, isEmpty_tokens, startsWithMark_tokens]
      split
      · rfl
      · cases compareIndent next indent with
        | none => rfl
        | some order =>
          cases order with
          | eq =>
            dsimp only
            split <;> rfl
          | _ => rfl
    | false =>
      rw [continuation_of_isLineBreak hbreak, tokens_cons,
        continuation_of_isLineBreak (by simpa), ← tokens_cons, unexpected_tokens]
      rfl

/-- The same item of a block is made. -/
theorem blockItem_key (s : Shift) (seen : List String) (key? : Option Key) (value : Value) :
    blockItem seen (key?.map s.key) value = (blockItem seen key? value).mapError s.failure := by
  cases key? with
  | none => rfl
  | some key =>
    rw [Option.map_some, blockItem, blockItem]
    by_cases hseen : key.name ∈ seen
    · rw [if_pos hseen]
      exact if_pos hseen
    · rw [if_neg hseen]
      exact if_neg hseen

/-- The same items of a block are read. -/
theorem blockItems_tokens (hvalues : s.Commutes values shifted)
    (hblocks : s.CommuteBlocks blocks shiftedBlocks) (finish : Position) (indent : List Char)
    (onlyDashes : Bool) (seen : List String) (tokens : List Token) :
    blockItems (s.place finish) shifted shiftedBlocks (s.indent ++ indent) onlyDashes seen
        (s.tokens tokens) =
      s.parsed (blockItems finish values blocks indent onlyDashes seen tokens) := by
  have hstarts {tokens after : List Token} {key? : Option Key}
      (hstart : itemStart? onlyDashes tokens = some (key?, after)) :
      itemStart? onlyDashes (s.tokens tokens) = some (key?.map s.key, s.tokens after) := by
    rw [itemStart?_tokens, hstart]
    rfl
  have hreads {after : List Token} {key? : Option Key} {result : Parsed Value}
      (hvalue : itemValue values blocks indent key?.isNone after = result) :
      itemValue shifted shiftedBlocks (s.indent ++ indent) (key?.map s.key).isNone
        (s.tokens after) = s.parsed result := by
    rw [Option.isNone_map, itemValue_tokens hvalues hblocks, hvalue]
  have hmakes {seen : List String} {key? : Option Key} {value : Value}
      {result : Except DecodeFailure Item} (hitem : blockItem seen key? value = result) :
      blockItem seen (key?.map s.key) value = result.mapError s.failure := by
    rw [blockItem_key, hitem]
  fun_induction blockItems finish values blocks indent onlyDashes seen tokens with
  | case1 seen tokens hstart =>
    rw [blockItems_eq, itemStart?_tokens, hstart]
    exact congrArg Except.error (s.unexpected_tokens finish tokens)
  | case2 seen tokens key? after hstart failure hvalue =>
    exact blockItems_of_itemValue_error (hstarts hstart) (hreads hvalue)
  | case3 seen tokens key? after hstart value rest hvalue failure hitem =>
    rw [blockItems_eq, hstarts hstart]
    dsimp only
    rw [hreads hvalue, parsed_ok]
    dsimp only
    rw [hmakes hitem]
    rfl
  | case4 seen tokens key? after hstart value rest hvalue item hitem failure hcont =>
    rw [blockItems_of_item (hstarts hstart) (hreads hvalue) (hmakes hitem), continuation_tokens,
      hcont]
    rfl
  | case5 seen tokens key? after hstart value rest hvalue item hitem rest' hcont =>
    rw [blockItems_of_item (hstarts hstart) (hreads hvalue) (hmakes hitem), continuation_tokens,
      hcont]
    rfl
  | case6 seen tokens key? after hstart value rest hvalue item hitem next hcont _ _ _ ih =>
    rw [blockItems_of_item (hstarts hstart) (hreads hvalue) (hmakes hitem), continuation_tokens,
      hcont]
    dsimp only [continuation]
    rw [ih, parsed_map]

/-- The same block is read. -/
theorem blockWith_tokens (hvalues : s.Commutes values shifted)
    (hblocks : s.CommuteBlocks blocks shiftedBlocks) (finish : Position) (indent : List Char)
    (onlyDashes : Bool) (tokens : List Token) :
    blockWith (s.place finish) shifted shiftedBlocks (s.indent ++ indent) onlyDashes
        (s.tokens tokens) =
      s.parsed (blockWith finish values blocks indent onlyDashes tokens) := by
  rw [blockWith, blockWith, itemStart?_tokens, Option.isNone_map, hvalues,
    blockItems_tokens hvalues hblocks, parsed_collected]
  split <;> rfl

end Block

/-- Blocks are read alike in their other places. -/
theorem block_commutes (finish : Position) (depth : Nat) :
    s.CommuteBlocks (block finish depth) (block (s.place finish) depth) := by
  induction depth with
  | zero =>
    intro indent onlyDashes tokens
    cases tokens <;> rfl
  | succ depth ih =>
    intro indent onlyDashes
    exact blockWith_tokens (s.inlineValue_commutes finish depth) ih finish indent onlyDashes

/-- A stream in its other place. -/
def stream (stream : TokenStream) : TokenStream :=
  ⟨s.tokens stream.tokens, s.place stream.finish⟩

/-- The same value is read of a document whose first token is a line break. -/
theorem ofTokens_stream {stream : TokenStream}
    (h : stream.tokens.head?.any Token.isLineBreak = true) :
    Value.ofTokens (s.stream stream) = (Value.ofTokens stream).mapError s.failure := by
  obtain ⟨tokens, finish⟩ := stream
  cases tokens with
  | nil => contradiction
  | cons opening tokens =>
    obtain ⟨indent, hkind⟩ := Token.exists_of_isLineBreak h
    have hopening : splitOpening (opening :: tokens) = (indent, tokens) := by
      rw [splitOpening, hkind]
    have hshifted : splitOpening (s.token opening :: s.tokens tokens) =
        (s.indent ++ indent, s.tokens tokens) := by
      rw [splitOpening, s.kind_token_of_lineBreak hkind]
    rw [Value.ofTokens, Value.ofTokens, stream, tokens_cons, hshifted, hopening]
    dsimp only
    rw [isEmpty_tokens, s.block_commutes]
    split
    · rfl
    · cases (block finish maxDepth indent false).run tokens with
      | error failure => rfl
      | ok result =>
        obtain ⟨value, rest⟩ := result
        rw [parsed_ok]
        dsimp only
        rw [skipLineBreaks_tokens, isEmpty_tokens, unexpected_tokens]
        split <;> rfl

end Shift

end NeonAudit
