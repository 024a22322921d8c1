import NeonAudit.Document.Block
import NeonAudit.Proofs.Document.Collecting
import NeonAudit.Proofs.Literal.Spelling

/-!
# Tokens read as inline values

`Reads depth tokens value` says that the tokens are read as the value before whatever may follow a
value, with at most `depth` levels of brackets, and `ReadsItem` likewise for an item. A value
without arguments is read whatever follows, which is how the name of an entity is read before its
arguments.
-/

namespace NeonAudit

/-- Whether a value can start with the token. -/
def Token.opensValue (token : Token) : Bool :=
  match token.kind with
  | .literal _ => true
  | .string _ => true
  | .mark .openSquare => true
  | .mark .openBrace => true
  | _ => false

/-- What may follow a value: the end, a line break, a comma or a closing bracket. -/
def EndsValue (tokens : List Token) : Prop :=
  ∀ token ∈ tokens.head?, token.isLineBreak = true ∨
    token.kind ∈ [.mark .comma, .mark .closeSquare, .mark .closeBrace, .mark .closeParen]

/-- What follows does not make a key of what stands before it. -/
def Unkeyed (tokens : List Token) : Prop :=
  ∀ token ∈ tokens.head?, token.kind ∉ [.mark .colon, .mark .equals]

/-- A value is no key before what ends it. -/
theorem EndsValue.unkeyed {tokens : List Token} (h : EndsValue tokens) : Unkeyed tokens := by
  intro token htoken hmem
  simp only [List.mem_cons, List.not_mem_nil, or_false] at hmem
  rcases h token htoken with hbreak | hkind
  · rw [Token.isLineBreak] at hbreak
    rcases hmem with hkind | hkind <;> rw [hkind] at hbreak <;> contradiction
  · rcases hmem with hmem | hmem <;> rw [hmem] at hkind <;> revert hkind <;> decide

/-- The parser of the values inside brackets that are nested at most so deep. -/
def inside? (finish : Position) : (depth : Nat) → Option Parser
  | 0 => none
  | depth + 1 => some (inlineValue finish depth)

/-- An inline value is one level of brackets around the parser of the values inside. -/
theorem run_inlineValue (finish : Position) (depth : Nat) (tokens : List Token) :
    (inlineValue finish depth).run tokens = valueWith finish (inside? finish depth) tokens := by
  cases depth <;> rfl

/-- What starts like a value is no line break. -/
theorem Token.isLineBreak_of_opensValue {token : Token} (h : token.opensValue = true) :
    token.isLineBreak = false := by
  unfold opensValue at h
  unfold isLineBreak
  split at h <;> simp_all

/-- What starts like a value neither separates items nor ends them. -/
theorem Token.kind_ne_of_opensValue {token : Token} (h : token.opensValue = true) :
    token.kind ≠ .mark .comma ∧ token.kind ≠ .mark .dash ∧
      ∀ bracket : Bracket, token.kind ≠ .mark bracket.close := by
  unfold opensValue at h
  split at h <;> simp_all [Bracket.close]
  all_goals rintro ⟨⟩ <;> simp

/-- A token that spells a key starts like a value. -/
theorem Token.opensValue_of_mem {token : Token} {key : String}
    (h : token.kind ∈ [.literal key, .string key]) : token.opensValue = true := by
  simp only [List.mem_cons, List.not_mem_nil, or_false] at h
  rw [opensValue]
  rcases h with h | h <;> rw [h]

/-- A token that spells a key is read as the key. -/
theorem Token.key?_of_mem {token : Token} {key : String}
    (h : token.kind ∈ [.literal key, .string key]) : token.key? = some key := by
  simp only [List.mem_cons, List.not_mem_nil, or_false] at h
  rw [key?]
  rcases h with h | h <;> rw [h]

/-- A token that can be no key is none before a separator. -/
theorem splitKey?_of_key?_eq_none {token : Token} (h : token.key? = none)
    (separators : List Mark) (tokens : List Token) :
    splitKey? separators (token :: tokens) = none := by
  unfold splitKey?
  split
  · rename_i heq
    rw [← (List.cons.inj heq).1, h]
  · rfl

/-- The tokens start like a value. -/
def OpensValue (tokens : List Token) : Prop :=
  ∃ token rest, tokens = token :: rest ∧ token.opensValue = true

/-- The tokens are read as the value whatever follows. -/
structure ReadsPlain (depth : Nat) (tokens : List Token) (value : Value) : Prop where
  /-- The tokens start like a value. -/
  opens : OpensValue tokens
  /-- They do not start with a key. -/
  keyless : ∀ {after}, Unkeyed after → splitKey? [.colon, .equals] (tokens ++ after) = none
  /-- The parser reads the value. -/
  read : ∀ finish after,
    plainValue finish (inside? finish depth) (tokens ++ after) = .ok (value, after)

/-- The tokens are read as the value before whatever may follow a value. -/
structure Reads (depth : Nat) (tokens : List Token) (value : Value) : Prop where
  /-- The tokens start like a value. -/
  opens : OpensValue tokens
  /-- They do not start with a key. -/
  keyless : ∀ {after}, Unkeyed after → splitKey? [.colon, .equals] (tokens ++ after) = none
  /-- The parser reads the value. -/
  read : ∀ finish {after}, EndsValue after →
    (inlineValue finish depth).run (tokens ++ after) = .ok (value, after)

/-- What ends a value is no opening of arguments. -/
theorem EndsValue.splitArguments? {tokens : List Token} (h : EndsValue tokens) :
    splitArguments? tokens = none := by
  cases tokens with
  | nil => rfl
  | cons token rest =>
    refine if_neg fun hkind => ?_
    rcases h token rfl with hbreak | hmem
    · rw [Token.isLineBreak, hkind] at hbreak
      contradiction
    · rw [hkind] at hmem
      revert hmem
      decide

/-- What ends a value is no further link. -/
theorem EndsValue.splitLink? {tokens : List Token} (h : EndsValue tokens) :
    splitLink? tokens = none := by
  unfold NeonAudit.splitLink?
  split
  · rename_i token paren rest
    split
    · rename_i raw hkind
      rcases h token rfl with hbreak | hmem
      · rw [Token.isLineBreak, hkind] at hbreak
        contradiction
      · rw [hkind] at hmem
        simp at hmem
    · rfl
  · rfl

/-- What is read whatever follows is read before what may follow a value. -/
theorem ReadsPlain.reads {depth : Nat} {tokens : List Token} {value : Value}
    (h : ReadsPlain depth tokens value) : Reads depth tokens value where
  opens := h.opens
  keyless := h.keyless
  read finish after hafter := by
    rw [run_inlineValue, valueWith, h.read]
    dsimp only
    rw [hafter.splitArguments?]

/-- A token that denotes a value is read as it. -/
theorem readsPlain_of_denotes {token : Token} {value : Value} (h : token.kind.Denotes value)
    (depth : Nat) : ReadsPlain depth [token] value where
  opens := ⟨token, [], rfl, by
    unfold Token.opensValue
    cases hkind : token.kind with
    | literal raw => rfl
    | string text => rfl
    | mark mark => rw [hkind] at h; cases h
    | lineBreak indent => rw [hkind] at h; cases h⟩
  keyless := by
    intro after hafter
    unfold splitKey?
    split
    · rename_i first separator rest heq
      cases heq
      split
      · rename_i mark _ hmark
        refine if_neg fun hmem => hafter separator rfl ?_
        rw [hmark]
        simpa using hmem
      · rfl
    · rfl
  read finish after := by
    rw [List.singleton_append, plainValue]
    cases hkind : token.kind with
    | literal raw =>
      rw [hkind] at h
      cases h with
      | literal hvalue =>
        dsimp only
        rw [literalValue, hvalue]
        rfl
    | string text =>
      rw [hkind] at h
      cases h
      rfl
    | mark mark => rw [hkind] at h; cases h
    | lineBreak indent => rw [hkind] at h; cases h

/-- The tokens are read as the item before whatever may follow a value. -/
structure ReadsItem (depth : Nat) (tokens : List Token) (item : Item) : Prop where
  /-- The tokens start like a value. -/
  opens : OpensValue tokens
  /-- The parser reads the item unless its key has been seen. -/
  read : ∀ finish (bracket : Bracket) {seen after}, (∀ key ∈ item.key, key ∉ seen) →
    EndsValue after → inlineItem (inlineValue finish depth) bracket.close seen (tokens ++ after) =
      .ok (item, after)

/-- A value is an item without a key. -/
theorem Reads.item {depth : Nat} {tokens : List Token} {value : Value}
    (h : Reads depth tokens value) : ReadsItem depth tokens (Item.ofValue value) where
  opens := h.opens
  read finish _ _ _ _ hafter := by
    rw [inlineItem, h.keyless hafter.unkeyed]
    dsimp only
    rw [h.read finish hafter]
    rfl

/-- A key, a colon or an equals sign, and a value are an item. -/
theorem Reads.entry {depth : Nat} {tokens : List Token} {value : Value}
    (h : Reads depth tokens value) {key : String} {name sign : Token}
    (hname : name.kind ∈ [.literal key, .string key])
    (hsign : sign.kind ∈ [.mark .colon, .mark .equals]) :
    ReadsItem depth (name :: sign :: tokens) (Item.ofEntry (key, value)) where
  opens := ⟨name, _, rfl, Token.opensValue_of_mem hname⟩
  read finish bracket seen after hseen hafter := by
    have hsplit : splitKey? [.colon, .equals] (name :: sign :: (tokens ++ after)) =
        some (⟨key, name.position⟩, tokens ++ after) := by
      simp only [List.mem_cons, List.not_mem_nil, or_false] at hsign
      rw [splitKey?, Token.key?_of_mem hname]
      rcases hsign with hsign | hsign <;> rw [hsign] <;> rfl
    have hends : endsItem bracket.close (tokens ++ after) = false := by
      obtain ⟨token, rest, rfl, htoken⟩ := h.opens
      obtain ⟨hcomma, -, hclose⟩ := Token.kind_ne_of_opensValue htoken
      rw [List.cons_append, endsItem, Token.isLineBreak_of_opensValue htoken,
        decide_eq_false hcomma, decide_eq_false (hclose bracket)]
      rfl
    have hnew : key ∉ seen := hseen key rfl
    rw [List.cons_append, List.cons_append, inlineItem, hsplit]
    dsimp only
    rw [hends, if_neg Bool.false_ne_true, h.read finish hafter]
    dsimp only
    rw [keyedItem, if_neg hnew]
    rfl

/-- There are no more items before a closing bracket. -/
theorem inlineItems_of_close {finish : Position} {values : Parser} {close : Mark}
    {seen : List String} {tokens : List Token}
    (h : startsWithMark close (skipLineBreaks tokens) = true) :
    inlineItems finish values close seen tokens = .ok ([], (skipLineBreaks tokens).tail) := by
  rw [inlineItems]
  exact if_pos h

/-- Items of a collection are read up to its closing bracket. -/
theorem inlineItems_of_item {finish : Position} {values : Parser} {close : Mark}
    {seen : List String} {tokens rest : List Token} {item : Item}
    (hfront : startsWithMark close (skipLineBreaks tokens) = false)
    (hitem : inlineItem values close seen (skipLineBreaks tokens) = .ok (item, rest)) :
    inlineItems finish values close seen tokens =
      match separation close rest with
      | .closed rest => .ok ([item], rest)
      | .missing rest => .error (unexpected finish rest)
      | .separated next =>
        (inlineItems finish values close (item.key.toList ++ seen) next).map
          fun (items, rest) => (item :: items, rest) := by
  rw [inlineItems]
  simp only [hfront, Bool.false_eq_true, if_false]
  split
  · rename_i heq
    rw [hitem] at heq
    contradiction
  · rename_i item' rest' heq
    rw [hitem] at heq
    cases heq
    split <;> rename_i hsep <;> rw [hsep]

/-- The items of a collection fail as the first of them does. -/
theorem inlineItems_of_item_error {finish : Position} {values : Parser} {close : Mark}
    {seen : List String} {tokens : List Token} {failure : DecodeFailure}
    (hfront : startsWithMark close (skipLineBreaks tokens) = false)
    (hitem : inlineItem values close seen (skipLineBreaks tokens) = .error failure) :
    inlineItems finish values close seen tokens = .error failure := by
  rw [inlineItems]
  simp only [hfront, Bool.false_eq_true, if_false]
  split <;> rename_i heq <;> rw [hitem] at heq <;> cases heq
  rfl

/-- Nothing is skipped before what starts like a value. -/
theorem OpensValue.skipLineBreaks {tokens : List Token} (h : OpensValue tokens)
    (after : List Token) : skipLineBreaks (tokens ++ after) = tokens ++ after := by
  obtain ⟨token, rest, rfl, htoken⟩ := h
  exact List.dropWhile_cons_of_neg (by simp [Token.isLineBreak_of_opensValue htoken])

/-- What starts like a value does not start with a closing bracket. -/
theorem OpensValue.startsWithMark {tokens : List Token} (h : OpensValue tokens)
    (bracket : Bracket) (after : List Token) :
    startsWithMark bracket.close (tokens ++ after) = false := by
  obtain ⟨token, rest, rfl, htoken⟩ := h
  exact decide_eq_false ((Token.kind_ne_of_opensValue htoken).2.2 bracket)

/-- What starts like a value does so with more behind it. -/
theorem OpensValue.append {tokens : List Token} (h : OpensValue tokens) (rest : List Token) :
    OpensValue (tokens ++ rest) := by
  obtain ⟨token, more, rfl, htoken⟩ := h
  exact ⟨token, more ++ rest, rfl, htoken⟩

/-- A closing bracket is no comma. -/
theorem Bracket.close_ne_comma (bracket : Bracket) : bracket.close ≠ .comma := by
  cases bracket <;> decide

/-- The character of a closing bracket is a mark and ends literals. -/
theorem Bracket.close_char (bracket : Bracket) :
    Piece.bracketOrSeparator? bracket.close.char = some bracket.close ∧
      Piece.endsLiteral bracket.close.char = true := by
  cases bracket <;> exact ⟨rfl, rfl⟩

/-- A closing bracket ends a value. -/
theorem endsValue_of_close {bracket : Bracket} {token : Token}
    (h : token.kind = .mark bracket.close) (after : List Token) : EndsValue (token :: after) := by
  rintro _ ⟨⟩
  rw [h]
  cases bracket <;> simp [Bracket.close]

/-- A comma ends a value. -/
theorem endsValue_of_comma {token : Token} (h : token.kind = .mark .comma)
    (after : List Token) : EndsValue (token :: after) := by
  rintro _ ⟨⟩
  rw [h]
  simp

end NeonAudit
