import NeonAudit.Document.Decode
import NeonAudit.Proofs.Document.Overrun

/-!
# Items and the tokens they are written with

Every item of a collection is written with tokens of its own, and the key of an item before a colon
or an equals sign. So there are no more items than tokens, and no more items after a key than tokens
after it. Where the indices of a collection run out, there are therefore as many tokens as indices,
or a key among them is an integer with as many tokens after it as there are integers past it.
-/

namespace NeonAudit

/-- The separators after a key are among those that may be there. -/
theorem splitKey?_of_subset {separators separators' : List Mark} (hsub : separators ⊆ separators')
    {tokens rest : List Token} {key : Key} (h : splitKey? separators tokens = some (key, rest)) :
    splitKey? separators' tokens = some (key, rest) := by
  unfold splitKey? at h ⊢
  split at h
  · split at h
    · split at h
      · rename_i hmem
        rw [if_pos (hsub hmem)]
        exact h
      · contradiction
    · contradiction
  · contradiction

/-- The start of an item with a key is its spelling and a colon. -/
theorem splitKey?_of_itemStart? {onlyDashes : Bool} {tokens rest : List Token} {key : Key}
    (h : itemStart? onlyDashes tokens = some (some key, rest)) :
    splitKey? [.colon] tokens = some (key, rest) := by
  unfold itemStart? at h
  split at h
  · contradiction
  · split at h
    · cases h
    · split at h
      · contradiction
      · obtain ⟨⟨found, after⟩, hkey, hpair⟩ := Option.map_eq_some_iff.1 h
        cases hpair
        exact hkey

/-- The item is written with tokens at the front, before the ones given: a key is one of them,
before a colon or an equals sign. -/
inductive WrittenItem (tokens : List Token) : Item → List Token → Prop
  | keyless {value rest} : rest <:+ tokens → rest.length < tokens.length →
      WrittenItem tokens ⟨none, value⟩ rest
  | keyed {start key after value rest} : start <:+ tokens →
      splitKey? [.colon, .equals] start = some (key, after) → rest <:+ after →
        WrittenItem tokens ⟨some key.name, value⟩ rest

/-- The items are written one after another with tokens at the front. -/
inductive Written : List Token → List Item → Prop
  | nil {tokens} : Written tokens []
  | cons {tokens item rest items} : WrittenItem tokens item rest → Written rest items →
      Written tokens (item :: items)

section Tokens

variable {tokens tokens' rest : List Token} {item : Item} {items after : List Item}

/-- An item takes some tokens from the front. -/
theorem WrittenItem.suffix (h : WrittenItem tokens item rest) :
    rest <:+ tokens ∧ rest.length < tokens.length := by
  cases h with
  | keyless hsuffix hlt => exact ⟨hsuffix, hlt⟩
  | keyed hstart hsplit hrest =>
    have hkey := suffix_of_splitKey? hsplit
    exact ⟨hrest.trans (hkey.1.trans hstart),
      Nat.lt_of_le_of_lt hrest.length_le (Nat.lt_of_lt_of_le hkey.2 hstart.length_le)⟩

/-- There may be more tokens before an item. -/
theorem WrittenItem.mono (h : WrittenItem tokens item rest) (hsuffix : tokens <:+ tokens') :
    WrittenItem tokens' item rest := by
  cases h with
  | keyless hrest hlt =>
    exact .keyless (hrest.trans hsuffix) (Nat.lt_of_lt_of_le hlt hsuffix.length_le)
  | keyed hstart hsplit hrest => exact .keyed (hstart.trans hsuffix) hsplit hrest

/-- There may be more tokens before items. -/
theorem Written.mono (h : Written tokens items) (hsuffix : tokens <:+ tokens') :
    Written tokens' items := by
  cases h with
  | nil => exact .nil
  | cons hitem hitems => exact .cons (hitem.mono hsuffix) hitems

/-- There are no more items than tokens. -/
theorem Written.length_le (h : Written tokens items) : items.length ≤ tokens.length := by
  induction h with
  | nil => exact Nat.zero_le _
  | cons hitem _ ih => exact Nat.lt_of_le_of_lt ih hitem.suffix.2

/-- Any one of the items is written with those after it. -/
theorem Written.of_suffix (h : Written tokens items) (hsuffix : item :: after <:+ items) :
    Written tokens (item :: after) := by
  induction h with
  | nil => exact absurd (List.suffix_nil.1 hsuffix) (List.cons_ne_nil _ _)
  | cons hitem hitems ih =>
    rcases List.suffix_cons_iff.1 hsuffix with heq | hlater
    · cases heq
      exact .cons hitem hitems
    · exact (ih hlater).mono hitem.suffix.1

end Tokens

/-- There are as many tokens as indices, or a key among them is an integer with as many tokens after
it as there are integers of 64 bits past it. -/
def LacksIndices (tokens : List Token) : Prop :=
  2 ^ 63 ≤ tokens.length ∨ ∃ start key rest n, start <:+ tokens ∧
    splitKey? [.colon, .equals] start = some (key, rest) ∧
      Literal.integer? key.name.toList = some n ∧ 2 ^ 63 ≤ n.toInt + 1 + rest.length

/-- More tokens may lack indices as well. -/
theorem LacksIndices.mono {tokens tokens' : List Token} (h : LacksIndices tokens)
    (hsuffix : tokens <:+ tokens') : LacksIndices tokens' := by
  rcases h with hlength | ⟨start, key, rest, n, hstart, hkey⟩
  · exact .inl (Nat.le_trans hlength hsuffix.length_le)
  · exact .inr ⟨start, key, rest, n, hstart.trans hsuffix, hkey⟩

/-- The tokens lack indices if those of items that are written with them run out. -/
theorem Written.lacksIndices {tokens : List Token} {items : List Item} (h : Written tokens items)
    (hruns : Item.RunsOut 0 items) : LacksIndices tokens := by
  rcases Item.runsOut_iff.1 hruns with hcount | ⟨name, value, after, n, hsuffix, hread, hcount⟩
  · have hlength := h.length_le
    have hkeyless : Item.keyless items ≤ items.length := List.countP_le_length
    rw [Int64.toInt_zero] at hcount
    exact .inl (by omega)
  · have hkeyless : Item.keyless after ≤ after.length := List.countP_le_length
    cases h.of_suffix hsuffix with
    | cons hitem hafter =>
      have hlength := hafter.length_le
      cases hitem with
      | @keyed start key rest _ _ hstart hsplit hrest =>
        have hle := hrest.length_le
        exact .inr ⟨start, key, rest, n, hstart, hsplit, hread, by omega⟩

section Inline

variable {finish : Position} {values : Parser}

/-- An item in brackets is written with its tokens. -/
theorem written_of_inlineItem {close : Mark} {seen : List String} {tokens rest : List Token}
    {item : Item} (h : inlineItem values close seen tokens = .ok (item, rest)) :
    WrittenItem tokens item rest := by
  unfold inlineItem at h
  split at h
  · obtain ⟨⟨value, rest'⟩, hrun, hpair⟩ := Result.of_map_eq_ok h
    cases hpair
    obtain ⟨hsuffix, hlt⟩ := values.consumes hrun
    exact .keyless hsuffix hlt
  · rename_i key after hsplit
    split at h
    · obtain rfl := item_of_keyedItem h
      obtain rfl := rest_of_keyedItem h
      exact .keyed List.suffix_rfl hsplit List.suffix_rfl
    · split at h
      · contradiction
      · rename_i value rest' hrun
        obtain rfl := item_of_keyedItem h
        obtain rfl := rest_of_keyedItem h
        exact .keyed List.suffix_rfl hsplit (values.consumes hrun).1

/-- The items in brackets are written with their tokens. -/
theorem written_of_inlineItems {close : Mark} {seen : List String} {tokens rest : List Token}
    {items : List Item} (h : inlineItems finish values close seen tokens = .ok (items, rest)) :
    Written tokens items := by
  fun_induction inlineItems finish values close seen tokens generalizing items rest with
  | case1 =>
    cases h
    exact .nil
  | case2 => contradiction
  | case3 seen tokens front _ item rest' hitem =>
    cases h
    exact .cons ((written_of_inlineItem hitem).mono (skipLineBreaks_suffix tokens)) .nil
  | case4 => contradiction
  | case5 seen tokens front _ item rest' hitem next hsep _ _ _ =>
    rename_i ih
    obtain ⟨⟨items', rest''⟩, hrun, hpair⟩ := Result.of_map_eq_ok h
    cases hpair
    have hnext := (ih hrun).mono (suffix_of_separation (.inr hsep))
    exact .cons ((written_of_inlineItem hitem).mono (skipLineBreaks_suffix tokens)) hnext

end Inline

section Block

variable {finish : Position} {values : Parser} {blocks : List Char → Bool → Parser}

/-- An item of a block is written with its tokens. -/
theorem written_of_blockItem {onlyDashes : Bool} {indent : List Char} {seen : List String}
    {tokens after rest : List Token} {key? : Option Key} {value : Value} {item : Item}
    (hstart : itemStart? onlyDashes tokens = some (key?, after))
    (hvalue : itemValue values blocks indent key?.isNone after = .ok (value, rest))
    (hitem : blockItem seen key? value = .ok item) : WrittenItem tokens item rest := by
  have hrest := suffix_of_itemValue hvalue
  obtain rfl := item_of_blockItem hitem
  cases key? with
  | none =>
    obtain ⟨hafter, hlt⟩ := suffix_of_itemStart? hstart
    exact .keyless (hrest.trans hafter) (Nat.lt_of_le_of_lt hrest.length_le hlt)
  | some key =>
    have hsplit : splitKey? [.colon, .equals] tokens = some (key, after) :=
      splitKey?_of_subset (List.cons_subset_cons _ (List.nil_subset _))
        (splitKey?_of_itemStart? hstart)
    exact .keyed List.suffix_rfl hsplit hrest

/-- The items of a block are written with their tokens. -/
theorem written_of_blockItems {indent : List Char} {onlyDashes : Bool} {seen : List String}
    {tokens rest : List Token} {items : List Item}
    (h : blockItems finish values blocks indent onlyDashes seen tokens = .ok (items, rest)) :
    Written tokens items := by
  fun_induction blockItems finish values blocks indent onlyDashes seen tokens
    generalizing items rest with
  | case1 => contradiction
  | case2 => contradiction
  | case3 => contradiction
  | case4 => contradiction
  | case5 seen tokens key? after hstart value rest' hvalue item hitem rest'' hcont =>
    cases h
    exact .cons (written_of_blockItem hstart hvalue hitem) .nil
  | case6 seen tokens key? after hstart value rest' hvalue item hitem next hcont _ _ _ =>
    rename_i ih
    obtain ⟨⟨items', rest''⟩, hrun, hpair⟩ := Result.of_map_eq_ok h
    cases hpair
    exact .cons (written_of_blockItem hstart hvalue hitem)
      ((ih hrun).mono (suffix_of_continuation (.inr hcont)))

end Block

end NeonAudit
