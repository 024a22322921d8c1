import NeonAudit.Proofs.Document.Whole

/-!
# Tokens read as the lines of a block

`ReadsLines` says that the tokens are read as the lines of a block, one after another, and
`ReadsBlock` that they are read as a block before whatever ends it. What they are read as is a value
or a failure. A block is ended by a shorter indentation, at which several blocks may end at once,
and a block of dashes also by a line of the same indentation without a dash.
-/

namespace NeonAudit

/-- A deeper indentation starts with that of the block. -/
theorem compareIndent_append {unit : List Char} (hunit : unit ≠ []) (indent : List Char) :
    compareIndent (indent ++ unit) indent = some .gt := by
  rw [compareIndent, if_neg (by simpa using hunit),
    if_pos (List.isPrefixOf_iff_prefix.2 (List.prefix_append indent unit))]

/-- An indentation is equal to itself. -/
theorem compareIndent_self (indent : List Char) : compareIndent indent indent = some .eq :=
  if_pos rfl

/-- A shallower indentation is the start of that of the block. -/
theorem compareIndent_of_prefix {indent next : List Char} (h : next <+: indent)
    (hne : next ≠ indent) : compareIndent next indent = some .lt := by
  have hnot : indent.isPrefixOf next = false := by
    rw [Bool.eq_false_iff, Ne, List.isPrefixOf_iff_prefix]
    exact fun hback => hne (h.eq_of_length (Nat.le_antisymm h.length_le hback.length_le))
  rw [compareIndent, if_neg hne, hnot, if_neg Bool.false_ne_true,
    if_pos (List.isPrefixOf_iff_prefix.2 h)]

/-- What may follow a line of a block with the given indentation: the end, or a line that is not
deeper. -/
inductive Dedents (indent : List Char) : List Token → Prop
  | nil : Dedents indent []
  | last {lineBreak next} : lineBreak.kind = .lineBreak next → Dedents indent [lineBreak]
  | line {lineBreak next token rest} : lineBreak.kind = .lineBreak next → next <+: indent →
      Dedents indent (lineBreak :: token :: rest)

/-- What ends a block of the given indentation: the end, or a line that is shallower, or, where only
lines with dashes belong to the block, a line without one. -/
inductive EndsBlock (indent : List Char) (onlyDashes : Bool) : List Token → Prop
  | nil : EndsBlock indent onlyDashes []
  | last {lineBreak next} : lineBreak.kind = .lineBreak next →
      EndsBlock indent onlyDashes [lineBreak]
  | shallower {lineBreak next token rest} : lineBreak.kind = .lineBreak next → next <+: indent →
      next ≠ indent → EndsBlock indent onlyDashes (lineBreak :: token :: rest)
  | dashless {lineBreak token rest} : lineBreak.kind = .lineBreak indent → onlyDashes = true →
      token.kind ≠ .mark .dash → EndsBlock indent onlyDashes (lineBreak :: token :: rest)

/-- A line break tells an indentation. -/
theorem Token.exists_of_isLineBreak {token : Token} (h : token.isLineBreak = true) :
    ∃ indent, token.kind = .lineBreak indent := by
  unfold isLineBreak at h
  split at h
  · exact ⟨_, ‹_›⟩
  · contradiction

/-- What is after a document ends a block. -/
theorem EndsDocument.endsBlock {indent : List Char} {onlyDashes : Bool} {tokens : List Token}
    (h : EndsDocument tokens) : EndsBlock indent onlyDashes tokens := by
  cases h with
  | nil => exact .nil
  | lineBreak htoken =>
    obtain ⟨next, hkind⟩ := Token.exists_of_isLineBreak htoken
    exact .last hkind

/-- A block is not continued by what ends it. -/
theorem EndsBlock.continuation {indent : List Char} {onlyDashes : Bool} {tokens : List Token}
    (h : EndsBlock indent onlyDashes tokens) (finish : Position) :
    continuation finish indent onlyDashes tokens = .ended tokens := by
  cases h with
  | nil => rfl
  | last hkind =>
    rw [NeonAudit.continuation, hkind]
    rfl
  | shallower hkind hfront hne =>
    rw [NeonAudit.continuation, hkind]
    dsimp only
    rw [List.isEmpty_cons, if_neg Bool.false_ne_true, compareIndent_of_prefix hfront hne]
  | dashless hkind honly hdash =>
    rw [NeonAudit.continuation, hkind]
    dsimp only
    rw [List.isEmpty_cons, if_neg Bool.false_ne_true, compareIndent_self]
    dsimp only
    rw [honly, startsWithMark, decide_eq_false hdash, if_pos (by rfl)]

/-- A block is continued by a line break only. -/
theorem continuation_of_isLineBreak {token : Token} (h : token.isLineBreak = false)
    (finish : Position) (indent : List Char) (onlyDashes : Bool) (rest : List Token) :
    continuation finish indent onlyDashes (token :: rest) =
      .broken (unexpected finish (token :: rest)) := by
  rw [continuation]
  split
  · rename_i hkind
    rw [Token.isLineBreak, hkind] at h
    contradiction
  · rfl

/-- A block is continued by a line of its indentation, which has a dash if only those belong to
it. -/
theorem continuation_of_line {lineBreak token : Token} {indent : List Char}
    (hkind : lineBreak.kind = .lineBreak indent) {onlyDashes : Bool}
    (hdash : onlyDashes = true → token.kind = .mark .dash) (finish : Position)
    (rest : List Token) :
    continuation finish indent onlyDashes (lineBreak :: token :: rest) =
      .continued (token :: rest) := by
  rw [continuation, hkind]
  dsimp only
  rw [List.isEmpty_cons, if_neg Bool.false_ne_true, compareIndent_self]
  dsimp only
  refine if_neg fun h => ?_
  rw [Bool.and_eq_true, Bool.not_eq_true', startsWithMark, decide_eq_false_iff_not] at h
  exact h.2 (hdash h.1)

/-- A line that is not deeper ends all deeper blocks. -/
theorem Dedents.endsBlock {indent : List Char} {tokens : List Token} (h : Dedents indent tokens)
    {unit : List Char} (hunit : unit ≠ []) (onlyDashes : Bool) :
    EndsBlock (indent ++ unit) onlyDashes tokens := by
  cases h with
  | nil => exact .nil
  | last hkind => exact .last hkind
  | line hkind hfront =>
    refine .shallower hkind (hfront.trans (List.prefix_append indent unit)) ?_
    rintro rfl
    have hle := hfront.length_le
    have hpos := List.length_pos_iff.2 hunit
    rw [List.length_append] at hle
    omega

/-- What ends a block is not deeper. -/
theorem EndsBlock.dedents {indent : List Char} {onlyDashes : Bool} {tokens : List Token}
    (h : EndsBlock indent onlyDashes tokens) : Dedents indent tokens := by
  cases h with
  | nil => exact .nil
  | last hkind => exact .last hkind
  | shallower hkind hfront _ => exact .line hkind hfront
  | dashless hkind _ _ => exact .line hkind List.prefix_rfl

/-- What ends a block of any lines ends a block of dashes. -/
theorem EndsBlock.onlyDashes {indent : List Char} {tokens : List Token}
    (h : EndsBlock indent false tokens) : EndsBlock indent true tokens := by
  cases h with
  | nil => exact .nil
  | last hkind => exact .last hkind
  | shallower hkind hfront hne => exact .shallower hkind hfront hne
  | dashless _ honly _ => contradiction

/-- What is not deeper ends a value. -/
theorem Dedents.endsValue {indent : List Char} {tokens : List Token} (h : Dedents indent tokens) :
    EndsValue tokens := by
  cases h with
  | nil => simp [EndsValue]
  | last hkind =>
    rintro _ ⟨⟩
    exact .inl (by rw [Token.isLineBreak, hkind])
  | line hkind _ =>
    rintro _ ⟨⟩
    exact .inl (by rw [Token.isLineBreak, hkind])

/-- The tokens start with a dash, or with something else that is no line break. -/
def OpensLine (dash : Bool) (tokens : List Token) : Prop :=
  ∃ token rest, tokens = token :: rest ∧ token.isLineBreak = false ∧
    decide (token.kind = .mark .dash) = dash

/-- What a line of a block is read as. -/
structure Reading where
  /-- The key of the item, if it has one. -/
  key? : Option Key
  /-- The value of the item, or how reading it fails. -/
  value : Except DecodeFailure Value

namespace Reading

/-- The item that is read, where `seen` are the keys of the items before it. -/
def item (seen : List String) (reading : Reading) : Except DecodeFailure Item :=
  reading.value.bind (blockItem seen reading.key?)

/-- The items that are read one after another, up to the first failure. -/
def items (seen : List String) : List Reading → Except DecodeFailure (List Item)
  | [] => .ok []
  | reading :: readings =>
    (reading.item seen).bind fun item =>
      (items (item.key.toList ++ seen) readings).map (item :: ·)

/-- The item is read under its key, without a failure. -/
structure Yields (reading : Reading) (item : Item) : Prop where
  /-- The key is that of the item. -/
  key : reading.key?.map Key.name = item.key
  /-- The value is that of the item. -/
  value : reading.value = .ok item.value

/-- An item whose key has not been seen is read. -/
theorem Yields.item {reading : Reading} {item : Item} (h : reading.Yields item)
    {seen : List String} (hfresh : ∀ key ∈ item.key, key ∉ seen) :
    reading.item seen = .ok item := by
  obtain ⟨key?, value⟩ := reading
  obtain ⟨name, value'⟩ := item
  obtain ⟨hkey, rfl⟩ := h
  cases key? with
  | none =>
    cases hkey
    rfl
  | some key =>
    cases hkey
    exact if_neg (hfresh key.name rfl)

/-- Items are read if no key is repeated. -/
theorem items_of_yields {readings : List Reading} {items : List Item}
    (h : List.Forall₂ Yields readings items) {seen : List String} (hfresh : Item.Fresh seen items) :
    Reading.items seen readings = .ok items := by
  induction h generalizing seen with
  | nil => rfl
  | cons hreading _ ih =>
    rw [Reading.items, hreading.item hfresh.head]
    exact congrArg (Except.map _) (ih hfresh.tail)

end Reading

/-- The tokens are read as a line of a block with the given indentation, before the next one and
before what ends the block; `dash` tells whether they start with a dash. -/
structure ReadsLine (depth : Nat) (indent : List Char) (dash : Bool) (tokens : List Token)
    (reading : Reading) : Prop where
  /-- The tokens start with a dash or not. -/
  opens : OpensLine dash tokens
  /-- The item starts with its key or with a dash, and the tokens after that are read as its
  value. -/
  read : ∃ body,
    (∀ {onlyDashes} after, (onlyDashes = true → dash = true) →
      itemStart? onlyDashes (tokens ++ after) = some (reading.key?, body ++ after)) ∧
    ∀ finish {after}, Dedents indent after → (dash = false → EndsBlock indent true after) →
      itemValue (inlineValue finish depth) (block finish depth) indent reading.key?.isNone
        (body ++ after) = reading.value.map fun value => (value, after)

/-- The tokens are read as the lines of a block, with line breaks of its indentation between them.
-/
inductive ReadsLines (depth : Nat) (indent : List Char) (dash : Bool) :
    List Token → List Reading → Prop
  | single {tokens reading} : ReadsLine depth indent dash tokens reading →
      ReadsLines depth indent dash tokens [reading]
  | cons {tokens reading lineBreak rest readings} : ReadsLine depth indent dash tokens reading →
      lineBreak.kind = .lineBreak indent → ReadsLines depth indent dash rest readings →
        ReadsLines depth indent dash (tokens ++ lineBreak :: rest) (reading :: readings)

/-- Lines start like their first one. -/
theorem ReadsLines.opens {depth : Nat} {indent : List Char} {dash : Bool} {tokens : List Token}
    {readings : List Reading} (h : ReadsLines depth indent dash tokens readings) :
    OpensLine dash tokens := by
  cases h with
  | single hline => exact hline.opens
  | cons hline _ _ =>
    obtain ⟨token, rest, rfl, htoken⟩ := hline.opens
    exact ⟨token, _, rfl, htoken⟩

/-- The items of a block are the first one and those that continue it. -/
theorem blockItems_eq (finish : Position) (values : Parser) (blocks : List Char → Bool → Parser)
    (indent : List Char) (onlyDashes : Bool) (seen : List String) (tokens : List Token) :
    blockItems finish values blocks indent onlyDashes seen tokens =
      match itemStart? onlyDashes tokens with
      | none => .error (unexpected finish tokens)
      | some (key?, after) =>
        match itemValue values blocks indent key?.isNone after with
        | .error failure => .error failure
        | .ok (value, rest) =>
          match blockItem seen key? value with
          | .error failure => .error failure
          | .ok item =>
            match continuation finish indent onlyDashes rest with
            | .broken failure => .error failure
            | .ended rest => .ok ([item], rest)
            | .continued next =>
              (blockItems finish values blocks indent onlyDashes (item.key.toList ++ seen) next).map
                fun (items, rest) => (item :: items, rest) := by
  rw [blockItems]
  split
  · rename_i hstart
    simp only [hstart]
  · rename_i hstart
    split
    · rename_i hvalue
      simp only [hstart, hvalue]
    · rename_i value rest hvalue
      simp only [hstart, hvalue]
      cases blockItem seen _ value with
      | error failure => rfl
      | ok item =>
        dsimp only
        split <;> rename_i hcont <;> simp only [hcont]

/-- One item of a block is read before the others. -/
theorem blockItems_of_item {finish : Position} {values : Parser}
    {blocks : List Char → Bool → Parser} {indent : List Char} {onlyDashes : Bool}
    {seen : List String} {tokens after rest : List Token} {key? : Option Key} {value : Value}
    {item : Item} (hstart : itemStart? onlyDashes tokens = some (key?, after))
    (hvalue : itemValue values blocks indent key?.isNone after = .ok (value, rest))
    (hitem : blockItem seen key? value = .ok item) :
    blockItems finish values blocks indent onlyDashes seen tokens =
      match continuation finish indent onlyDashes rest with
      | .broken failure => .error failure
      | .ended rest => .ok ([item], rest)
      | .continued next =>
        (blockItems finish values blocks indent onlyDashes (item.key.toList ++ seen) next).map
          fun (items, rest) => (item :: items, rest) := by
  rw [blockItems_eq, hstart]
  dsimp only
  rw [hvalue]
  dsimp only
  rw [hitem]

/-- A block fails as the value of its first item does. -/
theorem blockItems_of_itemValue_error {finish : Position} {values : Parser}
    {blocks : List Char → Bool → Parser} {indent : List Char} {onlyDashes : Bool}
    {seen : List String} {tokens after : List Token} {key? : Option Key} {failure : DecodeFailure}
    (hstart : itemStart? onlyDashes tokens = some (key?, after))
    (hvalue : itemValue values blocks indent key?.isNone after = .error failure) :
    blockItems finish values blocks indent onlyDashes seen tokens = .error failure := by
  rw [blockItems_eq, hstart]
  dsimp only
  rw [hvalue]

/-- The items of a block are that of the first line and those that continue it. -/
theorem blockItems_of_reading {finish : Position} {values : Parser}
    {blocks : List Char → Bool → Parser} {indent : List Char} {onlyDashes : Bool}
    {tokens after rest : List Token} {reading : Reading}
    (hstart : itemStart? onlyDashes tokens = some (reading.key?, after))
    (hvalue : itemValue values blocks indent reading.key?.isNone after =
      reading.value.map fun value => (value, rest)) (seen : List String) :
    blockItems finish values blocks indent onlyDashes seen tokens =
      match reading.item seen with
      | .error failure => .error failure
      | .ok item =>
        match continuation finish indent onlyDashes rest with
        | .broken failure => .error failure
        | .ended rest => .ok ([item], rest)
        | .continued next =>
          (blockItems finish values blocks indent onlyDashes (item.key.toList ++ seen) next).map
            fun (items, rest) => (item :: items, rest) := by
  obtain ⟨key?, value⟩ := reading
  rw [blockItems_eq, hstart]
  dsimp only at hvalue ⊢
  rw [hvalue]
  cases value <;> rfl

/-- Lines are read up to what ends their block. -/
theorem ReadsLines.read {depth : Nat} {indent : List Char} {dash : Bool} {tokens : List Token}
    {readings : List Reading} (h : ReadsLines depth indent dash tokens readings)
    (finish : Position) {onlyDashes : Bool} (honly : onlyDashes = true → dash = true)
    (seen : List String) {after : List Token} (hafter : EndsBlock indent onlyDashes after) :
    blockItems finish (inlineValue finish depth) (block finish depth) indent onlyDashes seen
      (tokens ++ after) = (Reading.items seen readings).map fun items => (items, after) := by
  induction h generalizing seen with
  | single hline =>
    rename_i reading
    have hdashless : dash = false → EndsBlock indent true after := by
      rintro rfl
      cases onlyDashes with
      | true => exact absurd (honly rfl) Bool.false_ne_true
      | false => exact hafter.onlyDashes
    obtain ⟨body, hstart, hvalue⟩ := hline.read
    rw [blockItems_of_reading (hstart after honly) (hvalue finish hafter.dedents hdashless),
      hafter.continuation, Reading.items]
    cases reading.item seen <;> rfl
  | cons hline hkind hlines ih =>
    rename_i tokens reading lineBreak rest readings
    obtain ⟨token, rest, rfl, -, hdash⟩ := hlines.opens
    have hdashless : dash = false → EndsBlock indent true (lineBreak :: token :: (rest ++ after)) :=
      fun hfalse => .dashless hkind rfl (of_decide_eq_false (hdash.trans hfalse))
    obtain ⟨body, hstart, hvalue⟩ := hline.read
    have hcont := continuation_of_line hkind
      (fun htrue => of_decide_eq_true (hdash.trans (honly htrue))) finish (rest ++ after)
    have hread := hvalue finish (.line hkind List.prefix_rfl) hdashless
    rw [List.append_assoc, List.cons_append, List.cons_append,
      blockItems_of_reading (hstart _ honly) hread, hcont, Reading.items]
    cases reading.item seen with
    | error failure => rfl
    | ok item =>
      dsimp only [Except.bind]
      rw [← List.cons_append, ih]
      cases Reading.items (item.key.toList ++ seen) readings <;> rfl

/-- The tokens are read as a block with the given indentation, before whatever ends it; `dash` tells
whether its lines start with dashes, and `outcome` is its value or how reading it fails. -/
structure ReadsBlock (depth : Nat) (indent : List Char) (dash : Bool) (tokens : List Token)
    (outcome : Except DecodeFailure Value) : Prop where
  /-- The tokens start with a dash or not. -/
  opens : OpensLine dash tokens
  /-- They start a block on the line of a dash. -/
  opensBlock : ∀ after, opensBlock (tokens ++ after) = true
  /-- The parser reads the value. -/
  read : ∀ finish onlyDashes {after}, (onlyDashes = true → dash = true) →
    EndsBlock indent onlyDashes after →
      (block finish depth indent onlyDashes).run (tokens ++ after) =
        outcome.map fun value => (value, after)

/-- What starts an item starts a block on the line of a dash. -/
theorem opensBlock_of_itemStart? {onlyDashes : Bool} {tokens : List Token}
    {start : Option Key × List Token} (h : itemStart? onlyDashes tokens = some start) :
    opensBlock tokens = true := by
  unfold itemStart? at h
  split at h
  · contradiction
  · rename_i token rest
    rw [opensBlock, Bool.or_eq_true]
    split at h
    · rename_i hdash
      exact .inr (decide_eq_true hdash)
    · split at h
      · contradiction
      · obtain ⟨key, hkey, -⟩ := Option.map_eq_some_iff.1 h
        exact .inl (Option.isSome_iff_exists.2 ⟨key, hkey⟩)

/-- Lines start with an item whatever follows. -/
theorem ReadsLines.exists_itemStart? {depth : Nat} {indent : List Char} {dash : Bool}
    {tokens : List Token} {readings : List Reading}
    (h : ReadsLines depth indent dash tokens readings) (onlyDashes : Bool)
    (honly : onlyDashes = true → dash = true) (after : List Token) :
    ∃ start, itemStart? onlyDashes (tokens ++ after) = some start := by
  cases h with
  | single hline =>
    obtain ⟨body, hstart, -⟩ := hline.read
    exact ⟨_, hstart after honly⟩
  | cons hline _ _ =>
    obtain ⟨body, hstart, -⟩ := hline.read
    rw [List.append_assoc]
    exact ⟨_, hstart _ honly⟩

/-- Lines are a block of the collection of their items. -/
theorem ReadsLines.block {depth : Nat} {indent : List Char} {dash : Bool} {tokens : List Token}
    {readings : List Reading} (h : ReadsLines depth indent dash tokens readings) :
    ReadsBlock (depth + 1) indent dash tokens
      ((Reading.items [] readings).bind (Item.collect false)) where
  opens := h.opens
  opensBlock after := by
    obtain ⟨start, hstart⟩ := h.exists_itemStart? false (by simp) after
    exact opensBlock_of_itemStart? hstart
  read finish onlyDashes after honly hafter := by
    have hitems := h.read finish honly [] hafter
    obtain ⟨start, hstart⟩ := h.exists_itemStart? onlyDashes honly after
    change blockWith finish (inlineValue finish depth) (NeonAudit.block finish depth) indent
      onlyDashes (tokens ++ after) = _
    rw [blockWith, hstart, Option.isNone_some, Bool.and_false, if_neg Bool.false_ne_true, hitems]
    cases Reading.items [] readings with
    | error failure => rfl
    | ok items => rfl

/-- A value on the line of its item is a block if it follows a dash and starts one, and otherwise
inline. -/
theorem itemValue_of_isLineBreak {values : Parser} {blocks : List Char → Bool → Parser}
    {indent : List Char} {dash : Bool} {token : Token} {rest : List Token}
    (h : token.isLineBreak = false) :
    itemValue values blocks indent dash (token :: rest) =
      if dash && opensBlock (token :: rest) then
        (blocks (innerIndent indent token.position.column) false).run (token :: rest)
      else values.run (token :: rest) := by
  rw [itemValue]
  split
  · rename_i hkind
    rw [Token.isLineBreak, hkind] at h
    contradiction
  · rfl

/-- A value on the line of its item is inline unless it follows a dash and starts a block. -/
theorem itemValue_of_inline {values : Parser} {blocks : List Char → Bool → Parser}
    {indent : List Char} {dash : Bool} {token : Token} {rest : List Token}
    (hbreak : token.isLineBreak = false)
    (hblock : dash = true → opensBlock (token :: rest) = false) :
    itemValue values blocks indent dash (token :: rest) = values.run (token :: rest) := by
  rw [itemValue_of_isLineBreak hbreak]
  refine if_neg fun h => ?_
  rw [Bool.and_eq_true] at h
  rw [hblock h.1] at h
  exact Bool.false_ne_true h.2

/-- The value of an item is the block on deeper lines after it. -/
theorem itemValue_of_deeper {values : Parser} {blocks : List Char → Bool → Parser}
    {indent unit : List Char} (hunit : unit ≠ []) {lineBreak : Token}
    (hbreak : lineBreak.kind = .lineBreak (indent ++ unit)) {tokens : List Token}
    (htokens : tokens ≠ []) (dash : Bool) :
    itemValue values blocks indent dash (lineBreak :: tokens) =
      (blocks (indent ++ unit) false).run tokens := by
  rw [itemValue, hbreak]
  dsimp only
  rw [List.isEmpty_eq_false_iff.2 htokens, if_neg Bool.false_ne_true,
    compareIndent_append hunit]

/-- A key and its colon start an item of a block of any lines. -/
theorem itemStart?_of_key {name colon : Token} {key : String}
    (hname : name.kind ∈ [.literal key, .string key]) (hcolon : colon.kind = .mark .colon)
    (rest : List Token) :
    itemStart? false (name :: colon :: rest) = some (some ⟨key, name.position⟩, rest) := by
  have hdash := (Token.kind_ne_of_opensValue (Token.opensValue_of_mem hname)).2.1
  rw [itemStart?, if_neg hdash, if_neg Bool.false_ne_true, splitKey?, Token.key?_of_mem hname,
    hcolon]
  rfl

/-- A key does not start with a dash. -/
theorem opensLine_of_key {name : Token} {key : String}
    (hname : name.kind ∈ [.literal key, .string key]) (rest : List Token) :
    OpensLine false (name :: rest) := by
  have hopens := Token.opensValue_of_mem hname
  exact ⟨name, rest, rfl, Token.isLineBreak_of_opensValue hopens,
    decide_eq_false (Token.kind_ne_of_opensValue hopens).2.1⟩

section Line

variable {depth : Nat} {indent : List Char} {tokens : List Token} {value : Value} {key : String}
  {outcome : Except DecodeFailure Value} {name colon dashMark lineBreak : Token}

/-- A key with a body that is read is a line. -/
theorem readsLine_of_key (hname : name.kind ∈ [.literal key, .string key])
    (hcolon : colon.kind = .mark .colon)
    (hread : ∀ finish {after}, Dedents indent after → EndsBlock indent true after →
      itemValue (inlineValue finish depth) (block finish depth) indent false (tokens ++ after) =
        outcome.map fun value => (value, after)) :
    ReadsLine depth indent false (name :: colon :: tokens)
      ⟨some ⟨key, name.position⟩, outcome⟩ where
  opens := opensLine_of_key hname _
  read := by
    refine ⟨tokens, fun {onlyDashes} after honly => ?_,
      fun finish _ hdedents hdashless => hread finish hdedents (hdashless rfl)⟩
    cases onlyDashes with
    | true => exact absurd (honly rfl) Bool.false_ne_true
    | false => exact itemStart?_of_key hname hcolon _

/-- A dash with a body that is read is a line. -/
theorem readsLine_of_dash (hdash : dashMark.kind = .mark .dash)
    (hread : ∀ finish {after}, Dedents indent after →
      itemValue (inlineValue finish depth) (block finish depth) indent true (tokens ++ after) =
        outcome.map fun value => (value, after)) :
    ReadsLine depth indent true (dashMark :: tokens) ⟨none, outcome⟩ where
  opens := ⟨dashMark, tokens, rfl, by rw [Token.isLineBreak, hdash], decide_eq_true hdash⟩
  read := ⟨tokens, fun _ _ => if_pos hdash, fun finish _ hdedents _ => hread finish hdedents⟩

/-- A value on the line of its key. -/
theorem Reads.keyLine (h : Reads depth tokens value)
    (hname : name.kind ∈ [.literal key, .string key]) (hcolon : colon.kind = .mark .colon) :
    ReadsLine depth indent false (name :: colon :: tokens)
      ⟨some ⟨key, name.position⟩, .ok value⟩ := by
  refine readsLine_of_key hname hcolon fun finish after hdedents _ => ?_
  have hread := h.read finish hdedents.endsValue
  obtain ⟨token, rest, rfl, htoken⟩ := h.opens
  rw [List.cons_append, itemValue_of_inline (Token.isLineBreak_of_opensValue htoken) (by simp)]
  exact hread

/-- A value on the line of its dash. -/
theorem Reads.dashLine (h : Reads depth tokens value) (hdash : dashMark.kind = .mark .dash) :
    ReadsLine depth indent true (dashMark :: tokens) ⟨none, .ok value⟩ := by
  refine readsLine_of_dash hdash fun finish after hdedents => ?_
  have hread := h.read finish hdedents.endsValue
  have hkeyless := splitKey?_colon (h.keyless hdedents.endsValue.unkeyed)
  obtain ⟨token, rest, rfl, htoken⟩ := h.opens
  have hblock : opensBlock (token :: (rest ++ after)) = false := by
    rw [List.cons_append] at hkeyless
    rw [opensBlock, hkeyless, startsWithMark,
      decide_eq_false (Token.kind_ne_of_opensValue htoken).2.1]
    rfl
  rw [List.cons_append, itemValue_of_inline (Token.isLineBreak_of_opensValue htoken)
    fun _ => hblock]
  exact hread

/-- A block on deeper lines is the value of the item before it. -/
theorem ReadsBlock.itemValue {unit : List Char} {dash : Bool}
    (h : ReadsBlock depth (indent ++ unit) dash tokens outcome) (hunit : unit ≠ [])
    (hbreak : lineBreak.kind = .lineBreak (indent ++ unit)) (finish : Position) {after : List Token}
    (hafter : Dedents indent after) (afterDash : Bool) :
    itemValue (inlineValue finish depth) (block finish depth) indent afterDash
      (lineBreak :: tokens ++ after) = outcome.map fun value => (value, after) := by
  have hread := h.read finish false (by simp) (hafter.endsBlock hunit false)
  have hne : tokens ++ after ≠ [] := by
    obtain ⟨token, rest, rfl, -⟩ := h.opens
    exact List.cons_ne_nil _ _
  rwa [List.cons_append, itemValue_of_deeper hunit hbreak hne]

/-- A block on deeper lines after a key. -/
theorem ReadsBlock.keyLine {unit : List Char} {dash : Bool}
    (h : ReadsBlock depth (indent ++ unit) dash tokens outcome) (hunit : unit ≠ [])
    (hname : name.kind ∈ [.literal key, .string key]) (hcolon : colon.kind = .mark .colon)
    (hbreak : lineBreak.kind = .lineBreak (indent ++ unit)) :
    ReadsLine depth indent false (name :: colon :: lineBreak :: tokens)
      ⟨some ⟨key, name.position⟩, outcome⟩ :=
  readsLine_of_key hname hcolon fun finish _ hdedents _ =>
    h.itemValue hunit hbreak finish hdedents false

/-- A block on deeper lines after a dash. -/
theorem ReadsBlock.dashLine {unit : List Char} {dash : Bool}
    (h : ReadsBlock depth (indent ++ unit) dash tokens outcome) (hunit : unit ≠ [])
    (hdash : dashMark.kind = .mark .dash) (hbreak : lineBreak.kind = .lineBreak (indent ++ unit)) :
    ReadsLine depth indent true (dashMark :: lineBreak :: tokens) ⟨none, outcome⟩ :=
  readsLine_of_dash hdash fun finish _ hdedents => h.itemValue hunit hbreak finish hdedents true

/-- A block of dashes after a key, on lines of the same indentation. -/
theorem ReadsBlock.flushLine (h : ReadsBlock depth indent true tokens outcome)
    (hname : name.kind ∈ [.literal key, .string key]) (hcolon : colon.kind = .mark .colon)
    (hbreak : lineBreak.kind = .lineBreak indent) :
    ReadsLine depth indent false (name :: colon :: lineBreak :: tokens)
      ⟨some ⟨key, name.position⟩, outcome⟩ := by
  refine readsLine_of_key hname hcolon fun finish after _ hends => ?_
  have hread := h.read finish true (fun _ => rfl) hends
  obtain ⟨token, rest, rfl, -, hdash⟩ := h.opens
  rw [List.cons_append, NeonAudit.itemValue, hbreak]
  dsimp only
  rw [List.cons_append, List.isEmpty_cons, if_neg Bool.false_ne_true, compareIndent_self]
  dsimp only
  rw [startsWithMark, hdash, if_pos (by rfl)]
  exact hread

/-- A block on the line of a dash, two columns to the right of it. -/
theorem ReadsBlock.compactLine {dash : Bool} {token : Token} {rest : List Token}
    (h : ReadsBlock depth (indent ++ [' ', ' ']) dash (token :: rest) outcome)
    (hdash : dashMark.kind = .mark .dash) (hcolumn : token.position.column = indent.length + 3) :
    ReadsLine depth indent true (dashMark :: token :: rest) ⟨none, outcome⟩ := by
  refine readsLine_of_dash hdash fun finish after hdedents => ?_
  have hread := h.read finish false (by simp)
    (hdedents.endsBlock (List.cons_ne_nil _ _) false)
  have hblock := h.opensBlock after
  have hinner : innerIndent indent token.position.column = indent ++ [' ', ' '] := by
    rw [innerIndent, hcolumn, show indent.length + 3 - 1 - indent.length = 2 by omega]
    rfl
  obtain ⟨_, _, heq, hbreak, -⟩ := h.opens
  cases heq
  rw [List.cons_append] at hread hblock ⊢
  rw [itemValue_of_isLineBreak hbreak, hblock, if_pos (by rfl), hinner]
  exact hread

end Line

end NeonAudit
