import NeonAudit.Proofs.Document.Blame
import NeonAudit.Proofs.Document.Cursor.Loop
import NeonAudit.Proofs.Document.Link

/-!
# Walks over inline values

A cursor reads brackets, values and chains as the parsers read them that hand tokens on. Each
function of the cursor is compared with the one function on lists that it stands for, given that the
walks it is made of read what is inside, and the recursion on the fuel follows that on the levels
that may still be opened.
-/

namespace NeonAudit.Cursor

variable {stream : TokenStream} {short : Prop} {depth : Nat} {tokens : List Token}

/-- The walk reads as the parser does, wherever at most so many tokens are left. -/
def ReadsWithin (stream : TokenStream) (short : Prop) (depth bound : Nat) (walk : Walk Value)
    (parser : Parser) : Prop :=
  ∀ tokens : List Token, tokens.length ≤ bound →
    Reads stream short depth tokens walk (parser.run tokens)

theorem ReadsWithin.mono {walk : Walk Value} {parser : Parser} {bound bound' : Nat}
    (h : ReadsWithin stream short depth bound walk parser) (hbound : bound' ≤ bound) :
    ReadsWithin stream short depth bound' walk parser :=
  fun tokens htokens => h tokens (Nat.le_trans htokens hbound)

section Inside

variable {value : Walk Value} {values : Parser} {turns : Nat}

/-- An item is pushed as it is made, unless its key is repeated. -/
theorem ensures_push (builder : Builder) (key? : Option Key) (result : Value) :
    Ensures stream short depth tokens (builder.push key? result)
      (fun pushed rest => rest = tokens ∧
        ∃ item, blockItem builder.seen key? result = .ok item ∧ pushed = builder.add item)
      fun failure => blockItem builder.seen key? result = .error failure := by
  refine .ofResult_bind (fun item hitem => ?_) fun _ h => h
  exact .pure ⟨rfl, item, hitem, rfl⟩

/-- Whether an item ends is told by the first token. -/
theorem endsItem_eq (close : Mark) (tokens : List Token) :
    endsItem close tokens = (startsWithMark .comma tokens || startsWithMark close tokens ||
      tokens.head?.any Token.isLineBreak) := by
  cases tokens <;> rfl

/-- An item in brackets, from what is behind its key, if it has one. -/
def itemBehind (values : Parser) (close : Mark) (seen : List String) (key? : Option Key)
    (tokens : List Token) : Parsed Item :=
  match if key?.isSome && endsItem close tokens then .ok (.null, tokens) else values.run tokens with
  | .error failure => .error failure
  | .ok (value, rest) => (blockItem seen key? value).map fun item => (item, rest)

/-- An item in brackets is a key, or none, and what is behind it. -/
theorem inlineItem_eq (values : Parser) (close : Mark) (seen : List String) (tokens : List Token) :
    inlineItem values close seen tokens =
      match splitKey? [.colon, .equals] tokens with
      | none => itemBehind values close seen none tokens
      | some (key, after) => itemBehind values close seen (some key) after := by
  have hkeyed : ∀ (key : Key) (value : Value) (rest : List Token), keyedItem seen key value rest =
      (blockItem seen (some key) value).map fun item => (item, rest) := by
    intro key value rest
    unfold keyedItem blockItem
    dsimp only
    split <;> rfl
  unfold inlineItem itemBehind
  cases splitKey? [.colon, .equals] tokens with
  | none =>
    simp only [Option.isSome_none, Bool.false_and, Bool.false_eq_true, if_false]
    cases values.run tokens <;> rfl
  | some found =>
    obtain ⟨key, after⟩ := found
    simp only [Option.isSome_some, Bool.true_and]
    split
    · exact hkeyed key .null after
    · cases values.run after with
      | error failure => rfl
      | ok pair => exact hkeyed key pair.1 pair.2

/-- There is no value at the end. -/
theorem run_inlineValue_nil (finish : Position) (depth : Nat) :
    (inlineValue finish depth).run [] = .error (unexpected finish []) := by
  rw [run_inlineValue]
  rfl

/-- There is no item at the end where there is no value. -/
theorem inlineItem_nil {failure : DecodeFailure} (hnil : values.run [] = .error failure)
    (close : Mark) (seen : List String) : inlineItem values close seen [] = .error failure := by
  change (values.run []).map _ = _
  rw [hnil]
  rfl

/-- There are no items at the end, nor the closing bracket. -/
theorem inlineItems_nil {failure : DecodeFailure} (hnil : values.run [] = .error failure)
    (finish : Position) (close : Mark) (seen : List String) :
    inlineItems finish values close seen [] = .error failure :=
  inlineItems_of_item_error rfl (inlineItem_nil hnil close seen)

/-- The value of an item in brackets is read, unless it is left out, and the item is pushed. -/
theorem ensures_itemBehind (hvalue : ReadsWithin stream short depth tokens.length value values)
    (close : Mark) (builder : Builder) (key? : Option Key) :
    Ensures stream short depth tokens
      (do builder.push key? (← valueInside value close key?.isSome))
      (fun pushed rest => ∃ item,
        itemBehind values close builder.seen key? tokens = .ok (item, rest) ∧
          pushed = builder.add item)
      fun failure => itemBehind values close builder.seen key? tokens = .error failure := by
  have hread : Reads stream short depth tokens (valueInside value close key?.isSome)
      (if key?.isSome && endsItem close tokens then .ok (.null, tokens) else values.run tokens) := by
    refine .observe (observes_atMark .comma) (.observe (observes_atMark close)
      (.observe observes_atLineBreak ?_))
    rw [endsItem_eq]
    split
    · exact .pure rfl
    · exact hvalue tokens (Nat.le_refl _)
  unfold itemBehind
  refine .bind hread (fun failure hfailure => by rw [hfailure]) fun result rest hresult => ?_
  rw [hresult]
  refine (ensures_push builder key? result).mono id ?_ fun failure hfailure => ?_
  · intro pushed after hpushed
    obtain ⟨rfl, item, hitem, rfl⟩ := hpushed
    exact ⟨item, congrArg (Except.map _) hitem, rfl⟩
  · exact congrArg (Except.map _) hfailure

/-- An item in brackets is read and pushed. -/
theorem ensures_itemInside (hvalue : ReadsWithin stream short depth tokens.length value values)
    (close : Mark) (builder : Builder) :
    Ensures stream short depth tokens (itemInside value close builder)
      (fun pushed rest => ∃ item, inlineItem values close builder.seen tokens = .ok (item, rest) ∧
        pushed = builder.add item)
      fun failure => inlineItem values close builder.seen tokens = .error failure := by
  refine .observe (observes_atKey _) ?_
  rw [inlineItem_eq]
  cases hkey : splitKey? [.colon, .equals] tokens with
  | none => exact ensures_itemBehind hvalue close builder none
  | some found =>
    obtain ⟨key, after⟩ := found
    refine .bind (.takeKey hkey) (fun _ h => h) fun key' rest hrest => ?_
    obtain ⟨rfl, rfl⟩ := hrest
    exact ensures_itemBehind (hvalue.mono (suffix_of_splitKey? hkey).1.length_le) close builder
      (some key')

/-- What follows an item in brackets separates it from the next one or closes the brackets, and then
the items are collected; where the tokens are at an end, an item may be missing. -/
theorem ensures_separate (hshort : turns ≤ tokens.length → short) (bracket : Bracket)
    (builder : Builder) :
    Ensures stream short depth tokens (separate turns bracket builder)
      (fun turn rest => match turn with
        | .again next => separation bracket.close tokens = .separated rest ∧ next = builder
        | .done result => separation bracket.close tokens = .closed rest ∧
            Item.collect (bracket = .brace) builder.items = .ok result)
      fun failure => ∃ rest,
        (separation bracket.close tokens = .closed rest ∧
          Item.collect (bracket = .brace) builder.items = .error failure) ∨
        (failure = unexpected stream.finish rest ∧
          (separation bracket.close tokens = .missing rest ∨
            rest = [] ∧ separation bracket.close tokens = .separated [])) := by
  refine .bind (.skip hshort) (fun _ h => h) ?_
  intro skipped rest hskipped
  obtain ⟨rfl, hrest⟩ := hskipped
  refine .observe (observes_atMark .comma) ?_
  cases rest with
  | nil =>
    -- On lists the end separates, and it is the item that is missing there.
    have hsep : separation bracket.close tokens = .separated [] := by rw [separation, ← hrest]
    refine .observe (observes_atMark bracket.close) ?_
    simp only [startsWithMark, Bool.false_eq_true, if_false]
    split
    · exact .pure ⟨hsep, rfl⟩
    · exact .unexpectedToken ⟨[], .inr ⟨rfl, .inr ⟨rfl, hsep⟩⟩⟩
  | cons token rest =>
    have hsep : separation bracket.close tokens =
        if token.kind = .mark .comma then .separated rest
        else if token.kind = .mark bracket.close then .closed rest
        else if tokens.head?.any Token.isLineBreak then .separated (token :: rest)
        else .missing (token :: rest) := by rw [separation, ← hrest]
    split
    · rename_i hcomma
      rw [if_pos (of_decide_eq_true hcomma)] at hsep
      exact .advance (.pure ⟨hsep, rfl⟩)
    · rename_i hcomma
      rw [if_neg (of_decide_eq_false (eq_false_of_ne_true hcomma))] at hsep
      refine .observe (observes_atMark bracket.close) ?_
      split
      · rename_i hclose
        rw [if_pos (of_decide_eq_true hclose)] at hsep
        exact .advance (.ofResult_bind (fun _ hresult => .pure ⟨hsep, hresult⟩)
          fun _ hfailure => ⟨rest, .inl ⟨hsep, hfailure⟩⟩)
      · rename_i hclose
        rw [if_neg (of_decide_eq_false (eq_false_of_ne_true hclose))] at hsep
        split
        · rename_i hskipped
          rw [if_pos hskipped] at hsep
          exact .pure ⟨hsep, rfl⟩
        · rename_i hskipped
          rw [if_neg hskipped] at hsep
          exact .unexpectedToken ⟨_, .inr ⟨rfl, .inl hsep⟩⟩

/-- What is in brackets, from the items that have been read before. -/
def inlineRest (finish : Position) (values : Parser) (bracket : Bracket) (builder : Builder)
    (tokens : List Token) : Parsed Value :=
  collected (bracket = .brace)
    ((inlineItems finish values bracket.close builder.seen tokens).map fun (items, rest) =>
      (builder.items ++ items, rest))

/-- With one more item before, one less is to be read. -/
theorem inlineRest_add (finish : Position) (values : Parser) (bracket : Bracket) (builder : Builder)
    (item : Item) (tokens : List Token) :
    inlineRest finish values bracket (builder.add item) tokens =
      collected (bracket = .brace)
        ((inlineItems finish values bracket.close (item.key.toList ++ builder.seen) tokens).map
          fun (items, rest) => (builder.items ++ item :: items, rest)) := by
  simp only [inlineRest, Builder.add, List.append_assoc, List.singleton_append]

/-- Without items before, all that is in brackets is to be read. -/
theorem inlineRest_empty (finish : Position) (values : Parser) (bracket : Bracket)
    (tokens : List Token) :
    inlineRest finish values bracket .empty tokens =
      collected (bracket = .brace) (inlineItems finish values bracket.close [] tokens) := by
  rw [inlineRest, Builder.empty]
  cases inlineItems finish values bracket.close [] tokens <;> rfl

/-- A turn inside brackets reads an item with what follows it, or the closing bracket. -/
theorem turns_inlineTurn (hvalue : ReadsWithin stream short depth tokens.length value values)
    (hnil : values.run [] = .error (unexpected stream.finish []))
    (hshort : turns ≤ tokens.length → short) (bracket : Bracket) (builder : Builder) :
    Turns stream short depth (inlineRest stream.finish values bracket)
      (inlineTurn value turns bracket) builder tokens := by
  refine .bind (.skip hshort) (fun _ h => h) ?_
  intro _ front hfront
  obtain ⟨-, rfl⟩ := hfront
  have hlength := (skipLineBreaks_suffix tokens).length_le
  refine .observe (observes_atMark bracket.close) ?_
  cases hclose : startsWithMark bracket.close (skipLineBreaks tokens) with
  | true =>
    have hend : inlineRest stream.finish values bracket builder tokens =
        (Item.collect (bracket = .brace) builder.items).map
          fun value => (value, (skipLineBreaks tokens).tail) := by
      rw [inlineRest, inlineItems_of_close hclose]
      simp only [Except.map, List.append_nil, collected]
    rw [if_pos rfl]
    cases hfront : skipLineBreaks tokens with
    | nil =>
      rw [hfront] at hclose
      contradiction
    | cons token rest =>
      rw [hfront] at hend
      refine .advance (.ofResult_bind (fun result hresult => .pure ?_) fun failure hfailure => ?_)
      · rw [IsTurn, hend, hresult]
        rfl
      · rw [hend, hfailure]
        rfl
  | false =>
    rw [if_neg Bool.false_ne_true]
    have hfailed : ∀ failure,
        inlineItem values bracket.close builder.seen (skipLineBreaks tokens) = .error failure →
          inlineRest stream.finish values bracket builder tokens = .error failure := by
      intro failure hitem
      rw [inlineRest, inlineItems_of_item_error hclose hitem]
      rfl
    refine .observe observes_atEnd ?_
    split
    · rename_i hempty
      refine .unexpectedToken (hfailed _ ?_)
      rw [List.isEmpty_iff.1 hempty]
      exact inlineItem_nil hnil _ _
    · refine .bind (ensures_itemInside (hvalue.mono hlength) bracket.close builder) hfailed ?_
      intro pushed rest hpushed
      obtain ⟨item, hitem, rfl⟩ := hpushed
      have hrest := (suffix_of_inlineItem hitem).2
      refine (ensures_separate (fun _ => hshort (by omega)) bracket _).mono id ?_ ?_
      · intro turn after hturn
        cases turn with
        | again next =>
          obtain ⟨hsep, rfl⟩ := hturn
          have hafter := (suffix_of_separation (.inr hsep)).length_le
          refine ⟨by omega, ?_⟩
          rw [inlineRest_add, inlineRest, inlineItems_of_item hclose hitem, hsep]
          dsimp only
          cases inlineItems _ _ _ _ after <;> rfl
        | done result =>
          obtain ⟨hsep, hcollect⟩ := hturn
          rw [IsTurn, inlineRest, inlineItems_of_item hclose hitem, hsep]
          exact congrArg (Except.map _) hcollect
      · intro failure hfailure
        rw [inlineRest, inlineItems_of_item hclose hitem]
        obtain ⟨after, ⟨hsep, hcollect⟩ | ⟨rfl, hsep | ⟨rfl, hsep⟩⟩⟩ := hfailure
        · rw [hsep]
          exact congrArg (Except.map _) hcollect
        · rw [hsep]
          rfl
        · rw [hsep]
          dsimp only
          rw [inlineItems_nil hnil]
          rfl

/-- A collection in brackets is read behind the token at the cursor, if there is one. -/
theorem reads_inlineWith {levels : Nat} (hlevels : levels = maxDepth - depth)
    (hvalue : ∀ inner, levels = inner + 1 → ReadsWithin stream short (depth + 1) tokens.tail.length
      value (inlineValue stream.finish inner))
    (hshort : turns ≤ tokens.tail.length → short) (bracket : Bracket) :
    Reads stream short depth tokens (inlineWith value turns bracket)
      (bracketed stream.finish (inside? stream.finish levels) bracket
        (headPosition stream.finish tokens) tokens.tail) := by
  refine .nested (fun hdepth => ?_) fun hdeep => ?_
  · obtain ⟨inner, rfl⟩ := Nat.exists_eq_add_one.2 (show 0 < levels by omega)
    have hitems : Reads stream short (depth + 1) tokens.tail
        (iterate (inlineTurn value turns bracket) turns .empty)
        (inlineRest stream.finish (inlineValue stream.finish inner) bracket .empty tokens.tail) :=
      Turns.iterate (fun builder left hleft => turns_inlineTurn ((hvalue inner rfl).mono hleft)
        (run_inlineValue_nil _ inner) (fun hturns => hshort (by omega)) bracket builder) hshort
    rw [inlineRest_empty] at hitems
    cases tokens with
    | nil => exact .advance_nil hitems
    | cons token rest => exact .advance hitems
  · obtain rfl : levels = 0 := by omega
    rfl

end Inside

section Values

variable {inline : Bracket → Walk Value} {values? : Option Parser} {turns : Nat}

/-- The walks read what is in brackets, wherever at most so many tokens are left. -/
def ReadsBrackets (stream : TokenStream) (short : Prop) (depth bound : Nat)
    (inline : Bracket → Walk Value) (values? : Option Parser) : Prop :=
  ∀ (bracket : Bracket) (token : Token) (rest : List Token), (token :: rest).length ≤ bound →
    Reads stream short depth (token :: rest) (inline bracket)
      (bracketed stream.finish values? bracket token.position rest)

theorem ReadsBrackets.mono {bound bound' : Nat}
    (h : ReadsBrackets stream short depth bound inline values?) (hbound : bound' ≤ bound) :
    ReadsBrackets stream short depth bound' inline values? :=
  fun bracket token rest htokens => h bracket token rest (Nat.le_trans htokens hbound)

/-- A value without arguments is read. -/
theorem reads_plain (hinline : ReadsBrackets stream short depth tokens.length inline values?) :
    Reads stream short depth tokens (plain inline) (plainValue stream.finish values? tokens) := by
  refine .observe observes_peek ?_
  cases tokens with
  | nil => exact .unexpectedToken rfl
  | cons token rest =>
    rw [List.head?_cons, Option.map_some]
    cases hkind : token.kind with
    | literal raw =>
      rw [plainValue, hkind]
      exact .advance (.ofResult (fun _ hvalue => congrArg (Except.map _) hvalue)
        fun _ hfailure => congrArg (Except.map _) hfailure)
    | string text =>
      rw [plainValue, hkind]
      exact .advance (.pure rfl)
    | lineBreak indent =>
      rw [plainValue, hkind]
      exact .unexpectedToken rfl
    | mark mark =>
      rw [plainValue, hkind]
      cases mark with
      | openSquare => exact hinline .square token rest (Nat.le_refl _)
      | openBrace => exact hinline .brace token rest (Nat.le_refl _)
      | _ => exact .unexpectedToken rfl

/-- There is a link at the front exactly if it can be split off. -/
theorem isSome_splitLink? (tokens : List Token) :
    (splitLink? tokens).isSome =
      (tokens.head?.any (fun token => match token.kind with | .literal _ => true | _ => false) &&
        startsWithMark .openParen tokens.tail) := by
  match tokens with
  | [] => rfl
  | [_] => exact (Bool.and_false _).symm
  | token :: paren :: rest =>
    simp only [splitLink?, List.head?_cons, List.tail_cons, Option.any_some, startsWithMark]
    cases token.kind with
    | literal raw => by_cases hparen : paren.kind = .mark .openParen <;> simp [hparen]
    | _ => rfl

theorem observes_atLink : Observes stream tokens atLink (splitLink? tokens).isSome := by
  rw [isSome_splitLink?]
  exact .bind observes_peek (.bind (observes_beforeMark .openParen) (.pure _))

/-- The links of a chain, from those that have been read before. -/
def linksRest (finish : Position) (values? : Option Parser) (links : List (Value × Value))
    (tokens : List Token) : Parsed Value :=
  match splitLink? tokens with
  | none => .ok (ofLinks links, tokens)
  | some (raw, position, after) =>
    match literalValue raw with
    | .error failure => .error failure
    | .ok name =>
      (entityLinks finish values? name position after).map fun (more, rest) =>
        (ofLinks (links ++ more), rest)

/-- The links of a chain start with one whose arguments are followed by the others. -/
theorem entityLinks_eq_linksRest (finish : Position) (values? : Option Parser)
    (links : List (Value × Value)) (name : Value) (position : Position) (tokens : List Token) :
    ((entityLinks finish values? name position tokens).map fun (more, rest) =>
        (ofLinks (links ++ more), rest)) =
      match bracketed finish values? .paren position tokens with
      | .error failure => .error failure
      | .ok (arguments, rest) => linksRest finish values? (links ++ [(name, arguments)]) rest := by
  rw [entityLinks_eq]
  cases bracketed finish values? .paren position tokens with
  | error failure => rfl
  | ok pair =>
    dsimp only
    unfold linksRest
    cases splitLink? pair.2 with
    | none => rfl
    | some link =>
      dsimp only
      cases literalValue link.1 with
      | error failure => rfl
      | ok next =>
        dsimp only
        cases entityLinks finish values? next link.2.1 link.2.2 with
        | error failure => rfl
        | ok more => simp only [Except.map, List.append_assoc, List.singleton_append]

/-- A turn of a chain reads a literal with its arguments, or ends the chain. -/
theorem turns_linkTurn (hinline : ReadsBrackets stream short depth tokens.length inline values?)
    (links : List (Value × Value)) :
    Turns stream short depth (linksRest stream.finish values?) (linkTurn inline) links tokens := by
  refine .observe observes_atLink ?_
  cases hlink : splitLink? tokens with
  | none =>
    refine .pure ?_
    rw [IsTurn, linksRest, hlink]
  | some link =>
    obtain ⟨raw, position, after⟩ := link
    obtain ⟨token, paren, hkind, rfl, rfl⟩ := exists_of_splitLink? hlink
    rw [Option.isSome_some, if_pos rfl]
    refine .advance ?_
    rw [Option.map_some, hkind]
    have hname : ∀ name, literalValue raw = .ok name →
        linksRest stream.finish values? links (token :: paren :: after) =
          match bracketed stream.finish values? .paren paren.position after with
          | .error failure => .error failure
          | .ok (arguments, rest) =>
            linksRest stream.finish values? (links ++ [(name, arguments)]) rest := by
      intro name hname
      rw [← entityLinks_eq_linksRest, linksRest, hlink]
      dsimp only
      rw [hname]
    refine .ofResult_bind (fun name hliteral => ?_) fun failure hfailure => ?_
    · refine .bind (hinline .paren paren after (Nat.le_succ _)) (fun failure hfailure => ?_) ?_
      · rw [hname name hliteral, hfailure]
      · intro arguments rest hargs
        refine .pure ⟨?_, ?_⟩
        · have := (suffix_of_bracketed hargs).length_le
          simp only [List.length_cons]
          omega
        · rw [hname name hliteral, hargs]
    · rw [linksRest, hlink]
      dsimp only
      rw [hfailure]

/-- A value is read with the arguments that follow it. -/
theorem reads_valueWith (hinline : ReadsBrackets stream short depth tokens.length inline values?)
    (hshort : turns ≤ tokens.length → short) :
    Reads stream short depth tokens (valueWith inline turns)
      (NeonAudit.valueWith stream.finish values? tokens) := by
  refine .bind (reads_plain hinline) (fun failure hfailure => ?_) fun first rest hplain => ?_
  · rw [NeonAudit.valueWith, hfailure]
  have hlength := (suffix_of_plainValue hplain).2
  refine .observe (observes_atMark .openParen) ?_
  rw [NeonAudit.valueWith, hplain]
  dsimp only
  cases rest with
  | nil => exact .pure rfl
  | cons paren after =>
    by_cases hparen : paren.kind = .mark .openParen
    · have hargs : splitArguments? (paren :: after) = some (paren.position, after) := if_pos hparen
      have hmark : startsWithMark .openParen (paren :: after) = true := decide_eq_true hparen
      have hlinks := entityLinks_eq_linksRest stream.finish values? [] first paren.position after
      simp only [List.nil_append] at hlinks
      rw [hmark, if_pos rfl, hargs]
      dsimp only
      rw [hlinks]
      refine .bind (hinline .paren paren after (by omega)) (fun failure hfailure => ?_) ?_
      · rw [hfailure]
      · intro arguments rest harguments
        have hrest := (suffix_of_bracketed harguments).length_le
        rw [List.length_cons] at hlength
        rw [harguments]
        exact Turns.iterate (fun links left hleft =>
          turns_linkTurn (hinline.mono (by omega)) links) fun hturns => hshort (by omega)
    · have hargs : splitArguments? (paren :: after) = none := if_neg hparen
      have hmark : startsWithMark .openParen (paren :: after) = false := decide_eq_false hparen
      rw [hmark, if_neg Bool.false_ne_true, hargs]
      exact .pure rfl

end Values

/-- What is in brackets is read as deep as the levels that may still be opened. -/
theorem reads_inline (fuel : Nat) (depth : Nat) (tokens : List Token) :
    ReadsBrackets stream (fuel ≤ tokens.length) depth tokens.length (inline fuel)
      (inside? stream.finish (maxDepth - depth)) := by
  -- What is inside has one level less, one token less, and one unit of fuel less.
  induction fuel generalizing depth tokens with
  | zero => exact fun _ _ _ _ _ _ => .unfinished (Nat.zero_le _)
  | succ fuel ih =>
    intro bracket token rest hlength
    rw [List.length_cons] at hlength
    have hvalue : ∀ inner, maxDepth - depth = inner + 1 →
        ReadsWithin stream (fuel + 1 ≤ tokens.length) (depth + 1) rest.length
          (valueWith (inline fuel) fuel) (inlineValue stream.finish inner) := by
      intro inner hinner after hafter
      obtain rfl : inner = maxDepth - (depth + 1) := by omega
      rw [run_inlineValue]
      exact (reads_valueWith (ih (depth + 1) after) id).mono fun hshort => by omega
    have hturns : fuel ≤ rest.length → fuel + 1 ≤ tokens.length := fun hfuel => by omega
    exact reads_inlineWith rfl hvalue hturns bracket

/-- Inline values are read. -/
theorem reads_value (fuel : Nat) (depth : Nat) (tokens : List Token) :
    Reads stream (fuel ≤ tokens.length) depth tokens (value fuel)
      ((inlineValue stream.finish (maxDepth - depth)).run tokens) := by
  rw [run_inlineValue]
  exact reads_valueWith (reads_inline fuel depth tokens) id

end NeonAudit.Cursor
