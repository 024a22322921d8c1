import NeonAudit.Document.Inline

/-!
# Blocks

A block is a list of items on lines of equal indentation, each started by a dash or by a key with a
colon; what is neither is a block of one inline value. The value of an item stands on its line, or
is a block of its own: on deeper lines, after a key on lines of the same indentation that start with
dashes, or after a dash on the same line, where the column of the first token tells the indentation
of the lines that continue it.

As for inline values, the functions that read one block take the parsers of what is inside as
arguments, and `block` ties the knot by recursion on the number of levels that may still be opened.
-/

namespace NeonAudit

/-- How an indentation relates to that of a block: equal, deeper, or shallower. Two indentations of
which neither starts with the other have no relation. -/
def compareIndent (indent base : List Char) : Option Ordering :=
  if indent = base then some .eq
  else if base.isPrefixOf indent then some .gt
  else if indent.isPrefixOf base then some .lt
  else none

/-- Indentations compare as equal only if they are. -/
theorem eq_of_compareIndent {next indent : List Char} (h : compareIndent next indent = some .eq) :
    next = indent := by
  unfold compareIndent at h
  repeat' split at h
  all_goals first
    | assumption
    | cases h

/-- The start of an item and the tokens after it: a dash, which is `none`, or a key with its colon
unless only dashes are allowed. -/
def itemStart? (onlyDashes : Bool) : List Token → Option (Option Key × List Token)
  | [] => none
  | token :: rest =>
    if token.kind = .mark .dash then some (none, rest)
    else if onlyDashes then none
    else (splitKey? [.colon] (token :: rest)).map fun (key, after) => (some key, after)

/-- The start of an item is one token or more at the front. -/
theorem suffix_of_itemStart? {onlyDashes : Bool} {tokens rest : List Token} {key : Option Key}
    (h : itemStart? onlyDashes tokens = some (key, rest)) :
    rest <:+ tokens ∧ rest.length < tokens.length := by
  unfold itemStart? at h
  split at h
  · contradiction
  · rename_i token tail
    split at h
    · cases h
      exact ⟨List.suffix_cons _ _, Nat.lt_succ_self _⟩
    · split at h
      · contradiction
      · obtain ⟨⟨found, after⟩, hkey, hpair⟩ := Option.map_eq_some_iff.1 h
        cases hpair
        exact suffix_of_splitKey? hkey

/-- Whether the tokens after a dash start a block on its line. -/
def opensBlock (tokens : List Token) : Bool :=
  (splitKey? [.colon] tokens).isSome || startsWithMark .dash tokens

/-- The indentation of a block that starts at the given column inside a block of the given
indentation. -/
def innerIndent (indent : List Char) (column : Nat) : List Char :=
  indent ++ List.replicate (column - 1 - indent.length) ' '

/-- The value of an item after its start: null where nothing follows that belongs to it. -/
def itemValue (values : Parser) (blocks : List Char → Bool → Parser) (indent : List Char)
    (dash : Bool) (tokens : List Token) : Parsed Value :=
  match tokens with
  | [] => .ok (.null, [])
  | token :: rest =>
    match token.kind with
    | .lineBreak next =>
      if rest.isEmpty then .ok (.null, tokens)
      else
        match compareIndent next indent with
        | none => .error (.at token.position .mixedIndentation)
        | some .gt => (blocks next false).run rest
        | some .eq =>
          if !dash && startsWithMark .dash rest then (blocks indent true).run rest
          else .ok (.null, tokens)
        | some .lt => .ok (.null, tokens)
    | _ =>
      if dash && opensBlock tokens then
        (blocks (innerIndent indent token.position.column) false).run tokens
      else values.run tokens

/-- The value of an item is tokens at the front. -/
theorem suffix_of_itemValue {values : Parser} {blocks : List Char → Bool → Parser}
    {indent : List Char} {dash : Bool} {tokens rest : List Token} {value : Value}
    (h : itemValue values blocks indent dash tokens = .ok (value, rest)) : rest <:+ tokens := by
  have ofParser : ∀ (p : Parser) {ts : List Token}, p.run ts = .ok (value, rest) → rest <:+ ts :=
    fun p _ hrun => (p.consumes hrun).1
  unfold itemValue at h
  split at h
  · cases h
    exact List.suffix_rfl
  · rename_i token tail
    have htail := List.suffix_cons token tail
    split at h
    · split at h
      · cases h
        exact List.suffix_rfl
      · split at h
        · contradiction
        · exact (ofParser _ h).trans htail
        · split at h
          · exact (ofParser _ h).trans htail
          · cases h
            exact List.suffix_rfl
        · cases h
          exact List.suffix_rfl
    · split at h
      · exact ofParser _ h
      · exact ofParser _ h

/-- What follows an item of a block. -/
inductive Continuation
  /-- The block ends before these tokens. -/
  | ended (rest : List Token)
  /-- The next item starts with these tokens. -/
  | continued (rest : List Token)
  /-- Something follows that cannot. -/
  | broken (failure : DecodeFailure)

/-- What follows an item of a block of the given indentation. -/
def continuation (finish : Position) (indent : List Char) (onlyDashes : Bool)
    (tokens : List Token) : Continuation :=
  match tokens with
  | [] => .ended []
  | token :: rest =>
    match token.kind with
    | .lineBreak next =>
      if rest.isEmpty then .ended tokens
      else
        match compareIndent next indent with
        | none => .broken (.at token.position .mixedIndentation)
        | some .lt => .ended tokens
        | some .gt => .broken (.at token.position .badIndentation)
        | some .eq =>
          if onlyDashes && !startsWithMark .dash rest then .ended tokens else .continued rest
    | _ => .broken (unexpected finish tokens)

/-- What follows an item is an end of the tokens after it. -/
theorem suffix_of_continuation {finish : Position} {indent : List Char} {onlyDashes : Bool}
    {tokens rest : List Token}
    (h : continuation finish indent onlyDashes tokens = .ended rest ∨
      continuation finish indent onlyDashes tokens = .continued rest) : rest <:+ tokens := by
  unfold continuation at h
  split at h
  · rcases h with h | h <;> cases h
    exact List.suffix_rfl
  · repeat' split at h
    all_goals rcases h with h | h <;> cases h
    all_goals first
      | exact List.suffix_rfl
      | exact List.suffix_cons _ _

/-- The next item of a block is after a line break that tells the indentation of the block. -/
theorem exists_of_continuation {finish : Position} {indent : List Char} {onlyDashes : Bool}
    {tokens next : List Token}
    (h : continuation finish indent onlyDashes tokens = .continued next) :
    ∃ lineBreak, tokens = lineBreak :: next ∧ lineBreak.kind = .lineBreak indent := by
  unfold continuation at h
  split at h
  · contradiction
  · rename_i token rest
    split at h
    · rename_i found hkind
      split at h
      · contradiction
      · split at h
        · contradiction
        · contradiction
        · contradiction
        · rename_i hcompare
          split at h
          · contradiction
          · cases h
            exact ⟨token, rfl, eq_of_compareIndent hcompare ▸ hkind⟩
    · contradiction

/-- An item of a block, unless an earlier item of the block has the same key. -/
def blockItem (seen : List String) (key? : Option Key) (value : Value) :
    Except DecodeFailure Item :=
  match key? with
  | none => .ok ⟨none, value⟩
  | some key =>
    if key.name ∈ seen then .error key.duplicated else .ok ⟨some key.name, value⟩

/-- An item of a block has the key and the value that are given. -/
theorem item_of_blockItem {seen : List String} {key? : Option Key} {value : Value} {item : Item}
    (h : blockItem seen key? value = .ok item) : item = ⟨key?.map Key.name, value⟩ := by
  unfold blockItem at h
  split at h
  · cases h
    rfl
  · split at h
    · contradiction
    · cases h
      rfl

/-- The items of a block, where `seen` are the keys of the items before them. -/
def blockItems (finish : Position) (values : Parser) (blocks : List Char → Bool → Parser)
    (indent : List Char) (onlyDashes : Bool) (seen : List String) (tokens : List Token) :
    Parsed (List Item) :=
  match hstart : itemStart? onlyDashes tokens with
  | none => .error (unexpected finish tokens)
  | some (key?, after) =>
    match hvalue : itemValue values blocks indent key?.isNone after with
    | .error failure => .error failure
    | .ok (value, rest) =>
      match blockItem seen key? value with
      | .error failure => .error failure
      | .ok item =>
        match hcont : continuation finish indent onlyDashes rest with
        | .broken failure => .error failure
        | .ended rest => .ok ([item], rest)
        | .continued next =>
          have := (suffix_of_itemStart? hstart).2
          have := (suffix_of_itemValue hvalue).length_le
          have := (suffix_of_continuation (.inr hcont)).length_le
          (blockItems finish values blocks indent onlyDashes (item.key.toList ++ seen) next).map
            fun (items, rest) => (item :: items, rest)
termination_by tokens.length
decreasing_by omega

/-- The items of a block are one token or more at the front. -/
theorem suffix_of_blockItems {finish : Position} {values : Parser}
    {blocks : List Char → Bool → Parser} {indent : List Char} {onlyDashes : Bool}
    {seen : List String} {tokens rest : List Token} {items : List Item}
    (h : blockItems finish values blocks indent onlyDashes seen tokens = .ok (items, rest)) :
    rest <:+ tokens ∧ rest.length < tokens.length := by
  fun_induction blockItems finish values blocks indent onlyDashes seen tokens
    generalizing items rest with
  | case1 => contradiction
  | case2 => contradiction
  | case3 => contradiction
  | case4 => contradiction
  | case5 seen tokens key? after hstart value rest' hvalue item _ rest'' hcont =>
    cases h
    have hsuffix := (suffix_of_continuation (.inl hcont)).trans (suffix_of_itemValue hvalue)
    have hitem := suffix_of_itemStart? hstart
    exact ⟨hsuffix.trans hitem.1, Nat.lt_of_le_of_lt hsuffix.length_le hitem.2⟩
  | case6 seen tokens key? after hstart value rest' hvalue item _ next hcont _ _ _ =>
    rename_i ih
    obtain ⟨⟨items', rest''⟩, hrun, hpair⟩ := Result.of_map_eq_ok h
    cases hpair
    have hsuffix := ((ih hrun).1.trans (suffix_of_continuation (.inr hcont))).trans
      (suffix_of_itemValue hvalue)
    have hitem := suffix_of_itemStart? hstart
    exact ⟨hsuffix.trans hitem.1, Nat.lt_of_le_of_lt hsuffix.length_le hitem.2⟩

/-- A block, where `values` reads inline values and `blocks` the blocks inside it. -/
def blockWith (finish : Position) (values : Parser) (blocks : List Char → Bool → Parser)
    (indent : List Char) (onlyDashes : Bool) (tokens : List Token) : Parsed Value :=
  if !onlyDashes && (itemStart? onlyDashes tokens).isNone then values.run tokens
  else
    collected false (blockItems finish values blocks indent onlyDashes [] tokens)

/-- A block is one token or more at the front. -/
theorem suffix_of_blockWith {finish : Position} {values : Parser}
    {blocks : List Char → Bool → Parser} {indent : List Char} {onlyDashes : Bool}
    {tokens rest : List Token} {value : Value}
    (h : blockWith finish values blocks indent onlyDashes tokens = .ok (value, rest)) :
    rest <:+ tokens ∧ rest.length < tokens.length := by
  unfold blockWith at h
  split at h
  · exact values.consumes h
  · obtain ⟨items, hrun, -⟩ := of_collected_eq_ok h
    exact suffix_of_blockItems hrun

/-- Reads nothing and reports that collections are nested too deeply. -/
def tooDeepParser (finish : Position) : Parser :=
  ⟨fun tokens => .error (.at (headPosition finish tokens) .tooDeep), fun h => nomatch h⟩

/-- Reads a block of the given indentation in which collections are nested at most `depth` deep,
the block itself included. -/
def block (finish : Position) : (depth : Nat) → (indent : List Char) → (onlyDashes : Bool) → Parser
  | 0, _, _ => tooDeepParser finish
  | depth + 1, indent, onlyDashes =>
    ⟨blockWith finish (inlineValue finish depth) (block finish depth) indent onlyDashes,
      suffix_of_blockWith⟩

end NeonAudit
