import NeonAudit.Document.Collection
import NeonAudit.Result

/-!
# Inline values

An inline value is a string, a literal, or a collection in brackets, and it may be followed by
arguments in parentheses, which make it an entity. Literals with arguments that follow an entity
directly are the further links of a chain. Items of a collection are separated by commas or line
breaks, and a key is followed by a colon or an equals sign.

The functions that read one level of brackets take the parser of the values inside as an argument;
there is none where brackets would be nested too deeply. `inlineValue` ties the knot by recursion on
the number of levels that may still be opened.
-/

namespace NeonAudit

/-- The three pairs of brackets. -/
inductive Bracket
  | square
  | brace
  | paren
deriving DecidableEq

/-- The mark that closes a pair of brackets. -/
def Bracket.close : Bracket → Mark
  | square => .closeSquare
  | brace => .closeBrace
  | paren => .closeParen

/-- Whether the value of a key is left out because its item ends here. -/
def endsItem (close : Mark) : List Token → Bool
  | [] => false
  | token :: _ => token.kind = .mark .comma || token.kind = .mark close || token.isLineBreak

/-- What follows an item of a collection in brackets. -/
inductive Separation
  /-- The collection is closed; these are the tokens after it. -/
  | closed (rest : List Token)
  /-- The tokens of the next item, or of the closing bracket, come here. -/
  | separated (rest : List Token)
  /-- Something stands here without a separator. -/
  | missing (rest : List Token)

/-- What follows an item: line breaks, which separate, and a comma or the closing bracket. -/
def separation (close : Mark) (tokens : List Token) : Separation :=
  match skipLineBreaks tokens with
  | [] => .separated []
  | token :: rest =>
    if token.kind = .mark .comma then .separated rest
    else if token.kind = .mark close then .closed rest
    else if tokens.head?.any Token.isLineBreak then .separated (token :: rest)
    else .missing (token :: rest)

/-- An item with a key, unless an earlier item of the collection has the same key. -/
def keyedItem (seen : List String) (key : Key) (value : Value) (rest : List Token) : Parsed Item :=
  if key.name ∈ seen then .error key.duplicated else .ok (⟨some key.name, value⟩, rest)

/-- An item of a collection in brackets. -/
def inlineItem (values : Parser) (close : Mark) (seen : List String) (tokens : List Token) :
    Parsed Item :=
  match splitKey? [.colon, .equals] tokens with
  | none => (values.run tokens).map fun (value, rest) => (⟨none, value⟩, rest)
  | some (key, after) =>
    if endsItem close after then keyedItem seen key .null after
    else
      match values.run after with
      | .error failure => .error failure
      | .ok (value, rest) => keyedItem seen key value rest

/-- A keyed item takes no tokens of its own. -/
theorem rest_of_keyedItem {seen : List String} {key : Key} {value : Value} {rest rest' : List Token}
    {item : Item} (h : keyedItem seen key value rest = .ok (item, rest')) : rest' = rest := by
  unfold keyedItem at h
  split at h
  · contradiction
  · cases h
    rfl

/-- A keyed item has the key and the value that are given. -/
theorem item_of_keyedItem {seen : List String} {key : Key} {value : Value} {rest rest' : List Token}
    {item : Item} (h : keyedItem seen key value rest = .ok (item, rest')) :
    item = ⟨some key.name, value⟩ := by
  unfold keyedItem at h
  split at h
  · contradiction
  · cases h
    rfl

/-- An item takes some tokens from the front. -/
theorem suffix_of_inlineItem {values : Parser} {close : Mark} {seen : List String}
    {tokens rest : List Token} {item : Item}
    (h : inlineItem values close seen tokens = .ok (item, rest)) :
    rest <:+ tokens ∧ rest.length < tokens.length := by
  unfold inlineItem at h
  split at h
  · obtain ⟨⟨value, rest'⟩, hrun, hpair⟩ := Result.of_map_eq_ok h
    cases hpair
    exact values.consumes hrun
  · rename_i key after hkey
    have hafter := suffix_of_splitKey? hkey
    split at h
    · exact rest_of_keyedItem h ▸ hafter
    · split at h
      · contradiction
      · rename_i value rest' hrun
        have hrest := values.consumes hrun
        obtain rfl := rest_of_keyedItem h
        exact ⟨hrest.1.trans hafter.1, Nat.lt_trans hrest.2 hafter.2⟩

/-- What follows an item is an end of the tokens after it. -/
theorem suffix_of_separation {close : Mark} {tokens rest : List Token}
    (h : separation close tokens = .closed rest ∨ separation close tokens = .separated rest) :
    rest <:+ tokens := by
  have hskip := skipLineBreaks_suffix tokens
  unfold separation at h
  split at h
  · rcases h with h | h <;> cases h
    exact List.nil_suffix
  · rename_i token rest' heq
    rw [heq] at hskip
    have htail := (List.suffix_cons token rest').trans hskip
    split at h
    · rcases h with h | h <;> cases h
      exact htail
    · split at h
      · rcases h with h | h <;> cases h
        exact htail
      · split at h
        · rcases h with h | h <;> cases h
          exact hskip
        · rcases h with h | h <;> cases h

/-- The items of a collection up to its closing bracket, where `seen` are the keys of the items
before them. -/
def inlineItems (finish : Position) (values : Parser) (close : Mark) (seen : List String)
    (tokens : List Token) : Parsed (List Item) :=
  let front := skipLineBreaks tokens
  if startsWithMark close front then .ok ([], front.tail)
  else
    match h : inlineItem values close seen front with
    | .error failure => .error failure
    | .ok (item, rest) =>
      match hsep : separation close rest with
      | .closed rest => .ok ([item], rest)
      | .missing rest => .error (unexpected finish rest)
      | .separated next =>
        have := (suffix_of_inlineItem h).2
        have : front.length ≤ tokens.length := (skipLineBreaks_suffix tokens).length_le
        have := (suffix_of_separation (.inr hsep)).length_le
        (inlineItems finish values close (item.key.toList ++ seen) next).map
          fun (items, rest) => (item :: items, rest)
termination_by tokens.length
decreasing_by omega

/-- The items of a collection and its closing bracket are tokens at the front. -/
theorem suffix_of_inlineItems {finish : Position} {values : Parser} {close : Mark}
    {seen : List String} {tokens rest : List Token} {items : List Item}
    (h : inlineItems finish values close seen tokens = .ok (items, rest)) : rest <:+ tokens := by
  fun_induction inlineItems finish values close seen tokens generalizing items rest with
  | case1 seen tokens _ =>
    cases h
    exact (List.tail_suffix _).trans (skipLineBreaks_suffix tokens)
  | case2 => contradiction
  | case3 seen tokens front _ item rest' hitem rest'' =>
    rename_i hsep
    cases h
    exact (suffix_of_separation (.inl hsep)).trans
      ((suffix_of_inlineItem hitem).1.trans (skipLineBreaks_suffix tokens))
  | case4 => contradiction
  | case5 seen tokens front _ item rest' hitem next hsep _ _ _ =>
    rename_i ih
    obtain ⟨⟨items', rest''⟩, hrun, hpair⟩ := Result.of_map_eq_ok h
    cases hpair
    exact (ih hrun).trans ((suffix_of_separation (.inr hsep)).trans
      ((suffix_of_inlineItem hitem).1.trans (skipLineBreaks_suffix tokens)))

/-- The collection of items that have been read, with the tokens after them. -/
def collected (preferMapping : Bool) : Parsed (List Item) → Parsed Value
  | .error failure => .error failure
  | .ok (items, rest) => (Item.collect preferMapping items).map fun value => (value, rest)

/-- What is collected are items that have been read, and the tokens after them stay. -/
theorem of_collected_eq_ok {preferMapping : Bool} {read : Parsed (List Item)} {value : Value}
    {rest : List Token} (h : collected preferMapping read = .ok (value, rest)) :
    ∃ items, read = .ok (items, rest) ∧ Item.collect preferMapping items = .ok value := by
  cases read with
  | error failure => contradiction
  | ok pair =>
    obtain ⟨value', hcollect, hpair⟩ := Result.of_map_eq_ok h
    cases hpair
    exact ⟨pair.1, rfl, hcollect⟩

/-- Without a collection, either the items have not been read or collecting them fails. -/
theorem of_collected_eq_error {preferMapping : Bool} {read : Parsed (List Item)}
    {failure : DecodeFailure} (h : collected preferMapping read = .error failure) :
    read = .error failure ∨ ∃ items rest,
      read = .ok (items, rest) ∧ Item.collect preferMapping items = .error failure := by
  cases read with
  | error failure' => exact .inl (congrArg Except.error (Except.error.inj h))
  | ok pair => exact .inr ⟨pair.1, pair.2, rfl, Result.of_map_eq_error h⟩

/-- A collection after its opening bracket, which stands at the given position. -/
def bracketed (finish : Position) (values? : Option Parser) (bracket : Bracket)
    (position : Position) (tokens : List Token) : Parsed Value :=
  match values? with
  | none => .error (.at position .tooDeep)
  | some values =>
    collected (bracket = .brace) (inlineItems finish values bracket.close [] tokens)

/-- A collection is tokens at the front. -/
theorem suffix_of_bracketed {finish : Position} {values? : Option Parser} {bracket : Bracket}
    {position : Position} {tokens rest : List Token} {value : Value}
    (h : bracketed finish values? bracket position tokens = .ok (value, rest)) :
    rest <:+ tokens := by
  unfold bracketed at h
  split at h
  · contradiction
  · obtain ⟨items, hrun, -⟩ := of_collected_eq_ok h
    exact suffix_of_inlineItems hrun

/-- The value of a literal. -/
def literalValue (raw : String) : Except DecodeFailure Value :=
  (Value.ofLiteral raw).mapError fun fault => .fault (.zone fault)

/-- The literal at the front of the tokens that has arguments, as its spelling, the position of the
opening bracket, and the tokens after that. -/
def splitLink? : List Token → Option (String × Position × List Token)
  | token :: paren :: rest =>
    match token.kind with
    | .literal raw =>
      if paren.kind = .mark .openParen then some (raw, paren.position, rest) else none
    | _ => none
  | _ => none

/-- A literal with arguments starts with two tokens. -/
theorem suffix_of_splitLink? {tokens rest : List Token} {raw : String} {position : Position}
    (h : splitLink? tokens = some (raw, position, rest)) :
    rest <:+ tokens ∧ rest.length < tokens.length := by
  unfold splitLink? at h
  split at h
  · rename_i token paren rest'
    split at h
    · split at h
      · cases h
        exact ⟨⟨[token, paren], rfl⟩, by simp only [List.length_cons]; omega⟩
      · contradiction
    · contradiction
  · contradiction

/-- The links of a chain, given the name of the first one, the position of the bracket that opens
its arguments, and the tokens after that. -/
def entityLinks (finish : Position) (values? : Option Parser) (name : Value) (position : Position)
    (tokens : List Token) : Parsed (List (Value × Value)) :=
  match h : bracketed finish values? .paren position tokens with
  | .error failure => .error failure
  | .ok (arguments, rest) =>
    match hlink : splitLink? rest with
    | none => .ok ([(name, arguments)], rest)
    | some (raw, position, after) =>
      match literalValue raw with
      | .error failure => .error failure
      | .ok next =>
        have := (suffix_of_bracketed h).length_le
        have := (suffix_of_splitLink? hlink).2
        (entityLinks finish values? next position after).map fun (links, rest) =>
          ((name, arguments) :: links, rest)
termination_by tokens.length
decreasing_by omega

/-- The links of a chain are tokens at the front. -/
theorem suffix_of_entityLinks {finish : Position} {values? : Option Parser} {name : Value}
    {position : Position} {tokens rest : List Token} {links : List (Value × Value)}
    (h : entityLinks finish values? name position tokens = .ok (links, rest)) :
    rest <:+ tokens := by
  fun_induction entityLinks finish values? name position tokens generalizing links rest with
  | case1 => contradiction
  | case2 name position tokens arguments rest' hargs _ =>
    cases h
    exact suffix_of_bracketed hargs
  | case3 => contradiction
  | case4 name position tokens arguments rest' hargs raw position' after hlink next _ _ _ =>
    rename_i ih
    obtain ⟨⟨links', rest''⟩, hrun, hpair⟩ := Result.of_map_eq_ok h
    cases hpair
    exact (ih hrun).trans ((suffix_of_splitLink? hlink).1.trans (suffix_of_bracketed hargs))

/-- An entity, or a chain of more than one. -/
def ofLinks : List (Value × Value) → Value
  | [(name, arguments)] => .entity name arguments
  | links => .chain links

/-- A value without the arguments that may follow it. -/
def plainValue (finish : Position) (values? : Option Parser) : List Token → Parsed Value
  | [] => .error (unexpected finish [])
  | token :: rest =>
    match token.kind with
    | .string text => .ok (.string text, rest)
    | .literal raw => (literalValue raw).map fun value => (value, rest)
    | .mark .openSquare => bracketed finish values? .square token.position rest
    | .mark .openBrace => bracketed finish values? .brace token.position rest
    | _ => .error (unexpected finish (token :: rest))

/-- A value without arguments is one token or more at the front. -/
theorem suffix_of_plainValue {finish : Position} {values? : Option Parser}
    {tokens rest : List Token} {value : Value}
    (h : plainValue finish values? tokens = .ok (value, rest)) :
    rest <:+ tokens ∧ rest.length < tokens.length := by
  unfold plainValue at h
  split at h
  · contradiction
  · rename_i token tail
    have htail : rest <:+ tail := by
      split at h
      · cases h
        exact List.suffix_rfl
      · obtain ⟨value', _, hpair⟩ := Result.of_map_eq_ok h
        cases hpair
        exact List.suffix_rfl
      · exact suffix_of_bracketed h
      · exact suffix_of_bracketed h
      · contradiction
    exact ⟨htail.trans (List.suffix_cons token tail), Nat.lt_succ_of_le htail.length_le⟩

/-- The opening of arguments at the front of the tokens, as its position and the tokens after it. -/
def splitArguments? : List Token → Option (Position × List Token)
  | [] => none
  | token :: rest => if token.kind = .mark .openParen then some (token.position, rest) else none

/-- The opening of arguments is a token at the front. -/
theorem suffix_of_splitArguments? {tokens rest : List Token} {position : Position}
    (h : splitArguments? tokens = some (position, rest)) : rest <:+ tokens := by
  unfold splitArguments? at h
  split at h
  · contradiction
  · split at h
    · cases h
      exact List.suffix_cons _ _
    · contradiction

/-- A value with the arguments that follow it, where `values?` reads what is inside brackets. -/
def valueWith (finish : Position) (values? : Option Parser) (tokens : List Token) : Parsed Value :=
  match plainValue finish values? tokens with
  | .error failure => .error failure
  | .ok (value, rest) =>
    match splitArguments? rest with
    | none => .ok (value, rest)
    | some (position, after) =>
      (entityLinks finish values? value position after).map fun (links, rest) =>
        (ofLinks links, rest)

/-- A value is one token or more at the front. -/
theorem suffix_of_valueWith {finish : Position} {values? : Option Parser}
    {tokens rest : List Token} {value : Value}
    (h : valueWith finish values? tokens = .ok (value, rest)) :
    rest <:+ tokens ∧ rest.length < tokens.length := by
  unfold valueWith at h
  split at h
  · contradiction
  · rename_i value' rest' hplain
    have hrest := suffix_of_plainValue hplain
    split at h
    · cases h
      exact hrest
    · rename_i position after hargs
      obtain ⟨⟨links, rest''⟩, hlinks, hpair⟩ := Result.of_map_eq_ok h
      cases hpair
      have hsuffix := (suffix_of_entityLinks hlinks).trans (suffix_of_splitArguments? hargs)
      exact ⟨hsuffix.trans hrest.1, Nat.lt_of_le_of_lt hsuffix.length_le hrest.2⟩

/-- Reads an inline value in which brackets are nested at most `depth` deep. -/
def inlineValue (finish : Position) : (depth : Nat) → Parser
  | 0 => ⟨valueWith finish none, suffix_of_valueWith⟩
  | depth + 1 => ⟨valueWith finish (some (inlineValue finish depth)), suffix_of_valueWith⟩

end NeonAudit
