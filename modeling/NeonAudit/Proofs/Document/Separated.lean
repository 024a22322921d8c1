import NeonAudit.Proofs.Document.Inline
import NeonAudit.Proofs.Token.Cutting

/-!
# Items up to a closing bracket

Behind an item a collection goes on with a separator, a comma with line breaks around it or line
breaks alone, or it is closed, which a separator may precede. `ReadsInside` says how tokens behind
an opening bracket or a comma are read, and `ReadsBehind` how those behind an item are; each is built
from the other as the tokens are from their parts, and neither depends on how many line breaks there
are. Items with commas alone between them are the case in which there are none.
-/

namespace NeonAudit

/-- The items behind an item, where `seen` are the keys up to it. -/
def moreItems (finish : Position) (values : Parser) (close : Mark) (seen : List String)
    (tokens : List Token) : Parsed (List Item) :=
  match separation close tokens with
  | .closed rest => .ok ([], rest)
  | .missing rest => .error (unexpected finish rest)
  | .separated next => inlineItems finish values close seen next

/-- The items of a collection are the first one and those behind it. -/
theorem inlineItems_eq_map_moreItems {finish : Position} {values : Parser} {close : Mark}
    {seen : List String} {tokens rest : List Token} {item : Item}
    (hfront : startsWithMark close (skipLineBreaks tokens) = false)
    (hitem : inlineItem values close seen (skipLineBreaks tokens) = .ok (item, rest)) :
    inlineItems finish values close seen tokens =
      (moreItems finish values close (item.key.toList ++ seen) rest).map
        fun (items, rest) => (item :: items, rest) := by
  rw [inlineItems_of_item hfront hitem, moreItems]
  cases separation close rest <;> rfl

/-- Line breaks at the front are skipped. -/
theorem Token.Breaks.skipLineBreaks {breaks : List Token} (h : Breaks breaks) (rest : List Token) :
    skipLineBreaks (breaks ++ rest) = skipLineBreaks rest :=
  List.dropWhile_append_of_pos h

/-- Line breaks before items do not matter. -/
theorem Token.Breaks.inlineItems {breaks : List Token} (h : Breaks breaks) (finish : Position)
    (values : Parser) (close : Mark) (seen : List String) (rest : List Token) :
    inlineItems finish values close seen (breaks ++ rest) =
      inlineItems finish values close seen rest := by
  have hskip := h.skipLineBreaks rest
  cases hfront : startsWithMark close (NeonAudit.skipLineBreaks rest) with
  | true => rw [inlineItems_of_close hfront, inlineItems_of_close (by rw [hskip, hfront]), hskip]
  | false =>
    cases hitem : inlineItem values close seen (NeonAudit.skipLineBreaks rest) with
    | error failure =>
      rw [inlineItems_of_item_error hfront hitem,
        inlineItems_of_item_error (by rw [hskip, hfront]) (by rw [hskip, hitem])]
    | ok read =>
      rw [inlineItems_eq_map_moreItems hfront hitem,
        inlineItems_eq_map_moreItems (by rw [hskip, hfront]) (by rw [hskip, hitem])]

/-- Line breaks before a token that ends a value end it. -/
theorem Token.Breaks.endsValue {breaks rest : List Token} (h : Breaks breaks)
    (hrest : breaks ≠ [] ∨ EndsValue rest) : EndsValue (breaks ++ rest) := by
  cases breaks with
  | nil => exact hrest.resolve_left fun hne => hne rfl
  | cons token breaks =>
    rintro _ ⟨⟩
    exact .inl (h token List.mem_cons_self)

/-- The tokens behind an opening bracket or a comma, up to the closing bracket, are read as the
items unless a key has been seen. -/
def ReadsInside (depth : Nat) (bracket : Bracket) (tokens : List Token) (items : List Item) :
    Prop :=
  ∀ finish {seen} after, Item.Fresh seen items →
    inlineItems finish (inlineValue finish depth) bracket.close seen (tokens ++ after) =
      .ok (items, after)

/-- The tokens behind an item, up to the closing bracket, are read as the items unless a key has
been seen. -/
structure ReadsBehind (depth : Nat) (bracket : Bracket) (tokens : List Token)
    (items : List Item) : Prop where
  /-- The tokens end the item. -/
  ends : ∀ after, EndsValue (tokens ++ after)
  /-- The parser reads the items. -/
  read : ∀ finish {seen} after, Item.Fresh seen items →
    moreItems finish (inlineValue finish depth) bracket.close seen (tokens ++ after) =
      .ok (items, after)

section Reading

variable {depth : Nat} {bracket : Bracket} {tokens breaks : List Token} {items : List Item}

/-- A mark is no line break. -/
theorem Token.isLineBreak_of_kind_eq_mark {token : Token} {mark : Mark}
    (h : token.kind = .mark mark) : token.isLineBreak = false := by
  rw [isLineBreak, h]

/-- Nothing is skipped before a mark. -/
theorem skipLineBreaks_of_kind_eq_mark {token : Token} {mark : Mark} (h : token.kind = .mark mark)
    (rest : List Token) : skipLineBreaks (token :: rest) = token :: rest :=
  List.dropWhile_cons_of_neg (by simp [Token.isLineBreak_of_kind_eq_mark h])

/-- Line breaks may stand before items. -/
theorem ReadsInside.skip (h : ReadsInside depth bracket tokens items)
    (hbreaks : Token.Breaks breaks) : ReadsInside depth bracket (breaks ++ tokens) items := by
  intro finish seen after hfresh
  rw [List.append_assoc, hbreaks.inlineItems]
  exact h finish after hfresh

/-- A closing bracket is read as no items. -/
theorem readsInside_close {close : Token} (hclose : close.kind = .mark bracket.close) :
    ReadsInside depth bracket [close] [] := by
  intro finish seen after _
  have hfront := skipLineBreaks_of_kind_eq_mark hclose after
  have hstarts : startsWithMark bracket.close (skipLineBreaks (close :: after)) = true := by
    rw [hfront]
    exact decide_eq_true hclose
  rw [List.singleton_append, inlineItems_of_close hstarts, hfront]
  rfl

/-- An item is read with those behind it. -/
theorem ReadsItem.inside {item : Item} {rest : List Token} (h : ReadsItem depth tokens item)
    (hrest : ReadsBehind depth bracket rest items) :
    ReadsInside depth bracket (tokens ++ rest) (item :: items) := by
  intro finish seen after hfresh
  have hread := h.read finish bracket hfresh.head (hrest.ends after)
  rw [List.append_assoc, inlineItems_eq_map_moreItems
    (by rw [h.opens.skipLineBreaks, h.opens.startsWithMark])
    (by rw [h.opens.skipLineBreaks, hread]), hrest.read finish after hfresh.tail]
  rfl

/-- Line breaks and a closing bracket behind an item are read as no items. -/
theorem readsBehind_close (hbreaks : Token.Breaks breaks) {close : Token}
    (hclose : close.kind = .mark bracket.close) :
    ReadsBehind depth bracket (breaks ++ [close]) [] where
  ends after := by
    rw [List.append_assoc]
    exact hbreaks.endsValue (.inr (endsValue_of_close hclose after))
  read finish seen after _ := by
    have hcomma : close.kind ≠ .mark .comma := by
      rw [hclose]
      simp [bracket.close_ne_comma]
    have hsep : separation bracket.close (breaks ++ close :: after) = .closed after := by
      rw [separation, hbreaks.skipLineBreaks, skipLineBreaks_of_kind_eq_mark hclose]
      dsimp only
      rw [if_neg hcomma, if_pos hclose]
    rw [List.append_assoc, List.singleton_append, moreItems, hsep]

/-- Line breaks and a comma behind an item separate it from the items after them, if any. -/
theorem ReadsInside.comma (h : ReadsInside depth bracket tokens items)
    (hbreaks : Token.Breaks breaks) {comma : Token} (hcomma : comma.kind = .mark .comma) :
    ReadsBehind depth bracket (breaks ++ comma :: tokens) items where
  ends after := by
    rw [List.append_assoc]
    exact hbreaks.endsValue (.inr (endsValue_of_comma hcomma (tokens ++ after)))
  read finish seen after hfresh := by
    have hsep : separation bracket.close (breaks ++ comma :: (tokens ++ after)) =
        .separated (tokens ++ after) := by
      rw [separation, hbreaks.skipLineBreaks, skipLineBreaks_of_kind_eq_mark hcomma]
      dsimp only
      rw [if_pos hcomma]
    rw [List.append_assoc, List.cons_append, moreItems, hsep]
    exact h finish after hfresh

/-- Line breaks behind an item separate it from the item after them. -/
theorem ReadsInside.lineBreaks (h : ReadsInside depth bracket tokens items)
    (hopens : OpensValue tokens) (hbreaks : Token.Breaks breaks) (hne : breaks ≠ []) :
    ReadsBehind depth bracket (breaks ++ tokens) items where
  ends after := by
    rw [List.append_assoc]
    exact hbreaks.endsValue (.inl hne)
  read finish seen after hfresh := by
    have hsep : separation bracket.close (breaks ++ (tokens ++ after)) =
        .separated (tokens ++ after) := by
      have hskip := hopens.skipLineBreaks after
      obtain ⟨token, rest, rfl, htoken⟩ := hopens
      obtain ⟨hcomma, -, hclose⟩ := Token.kind_ne_of_opensValue htoken
      have hhead : (breaks ++ (token :: rest ++ after)).head?.any Token.isLineBreak = true := by
        cases breaks with
        | nil => exact absurd rfl hne
        | cons first breaks => exact hbreaks first List.mem_cons_self
      -- Without a comma or a closing bracket, the line break that was skipped is the separator.
      rw [separation, hbreaks.skipLineBreaks, hskip, hhead]
      dsimp only [List.cons_append]
      rw [if_neg hcomma, if_neg (hclose bracket), if_pos rfl]
    rw [List.append_assoc, moreItems, hsep]
    exact h finish after hfresh

end Reading

/-- The tokens are read as the items, with commas between them. -/
inductive ReadsItems (depth : Nat) : List Token → List Item → Prop
  | single {tokens item} : ReadsItem depth tokens item → ReadsItems depth tokens [item]
  | cons {tokens item comma rest items} : ReadsItem depth tokens item →
      comma.kind = .mark .comma → ReadsItems depth rest items →
        ReadsItems depth (tokens ++ comma :: rest) (item :: items)

/-- Items with commas between them are read up to the closing bracket. -/
theorem ReadsItems.inside {depth : Nat} {tokens : List Token} {items : List Item}
    (h : ReadsItems depth tokens items) {bracket : Bracket} {close : Token}
    (hclose : close.kind = .mark bracket.close) :
    ReadsInside depth bracket (tokens ++ [close]) items := by
  induction h with
  | single hitem => exact hitem.inside (readsBehind_close (List.forall_mem_nil _) hclose)
  | cons hitem hcomma _ ih =>
    rw [List.append_assoc]
    exact hitem.inside (ih.comma (List.forall_mem_nil _) hcomma)

/-- The tokens are read as what is between two brackets: nothing, or items with commas between them
of which no two have the same key. -/
inductive ReadsContents (depth : Nat) : List Token → List Item → Prop
  | empty : ReadsContents depth [] []
  | items {tokens items} : ReadsItems depth tokens items → (Item.keys items).Nodup →
      ReadsContents depth tokens items

/-- The tokens after an opening bracket, up to the closing one, are read as the collection whatever
follows. -/
def Collects (depth : Nat) (bracket : Bracket) (tokens : List Token) (value : Value) : Prop :=
  ∀ finish position after, bracketed finish (inside? finish depth) bracket position
    (tokens ++ after) = .ok (value, after)

/-- What is read behind an opening bracket is collected if no key is repeated. -/
theorem ReadsInside.collects {depth : Nat} {bracket : Bracket} {tokens : List Token}
    {items : List Item} {value : Value} (h : ReadsInside depth bracket tokens items)
    (hkeys : (Item.keys items).Nodup) (hcollect : Item.collect (bracket = .brace) items = .ok value) :
    Collects (depth + 1) bracket tokens value := by
  intro finish position after
  rw [inside?, bracketed, h finish after (Item.fresh_of_nodup hkeys), collected, hcollect]
  rfl

/-- What is between two brackets is collected. -/
theorem ReadsContents.collects {depth : Nat} {tokens : List Token} {items : List Item}
    {value : Value} (h : ReadsContents depth tokens items) {bracket : Bracket} {close : Token}
    (hclose : close.kind = .mark bracket.close)
    (hcollect : Item.collect (bracket = .brace) items = .ok value) :
    Collects (depth + 1) bracket (tokens ++ [close]) value := by
  cases h with
  | items hitems hkeys => exact (hitems.inside hclose).collects hkeys hcollect
  | empty => exact (readsInside_close hclose).collects List.nodup_nil hcollect

/-- Square or curly brackets around what is collected are read as the collection whatever
follows. -/
theorem Collects.readsPlain {depth : Nat} {bracket : Bracket} {tokens : List Token} {value : Value}
    (h : Collects depth bracket tokens value) {openMark : Mark}
    (hbracket : (bracket, openMark) ∈ [(.square, .openSquare), (.brace, .openBrace)])
    {opening : Token} (hopening : opening.kind = .mark openMark) :
    ReadsPlain depth (opening :: tokens) value where
  opens := by
    refine ⟨opening, _, rfl, ?_⟩
    rw [Token.opensValue, hopening]
    simp only [List.mem_cons, List.not_mem_nil, or_false, Prod.mk.injEq] at hbracket
    rcases hbracket with ⟨rfl, rfl⟩ | ⟨rfl, rfl⟩ <;> rfl
  keyless _ := by
    rw [List.cons_append]
    exact splitKey?_of_key?_eq_none (by rw [Token.key?, hopening]) _ _
  read finish after := by
    have hread := h finish opening.position after
    rw [List.cons_append, plainValue, hopening]
    simp only [List.mem_cons, List.not_mem_nil, or_false, Prod.mk.injEq] at hbracket
    rcases hbracket with ⟨rfl, rfl⟩ | ⟨rfl, rfl⟩ <;> exact hread

end NeonAudit
