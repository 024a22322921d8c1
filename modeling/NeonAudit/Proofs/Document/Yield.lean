import NeonAudit.Document.Decode

/-!
# Values that parsers hand on

The functions that read the items of a collection take the parser of the values inside and hand on
what it reads, or null where a value is left out. So a property that null has, and that does not get
lost among more tokens, holds of the value of every item if it holds of all values that the parsers
inside read.
-/

namespace NeonAudit

/-- Whatever the parser reads has the property, for the tokens that it is given. -/
def Parser.Yields (parser : Parser) (P : List Token → Value → Prop) : Prop :=
  ∀ {tokens value rest}, parser.run tokens = .ok (value, rest) → P tokens value

/-- Null has the property for any tokens, and what has it for some tokens has it for more. -/
structure HandedOn (P : List Token → Value → Prop) : Prop where
  /-- Null has the property. -/
  null : ∀ tokens, P tokens .null
  /-- The property does not get lost. -/
  mono : ∀ {tokens tokens' value}, P tokens value → tokens ⊆ tokens' → P tokens' value

variable {P : List Token → Value → Prop} {finish : Position} {values : Parser}

/-- An item in brackets has a value that is handed on. -/
theorem HandedOn.inlineItem (hP : HandedOn P) (hvalues : values.Yields P) {close : Mark}
    {seen : List String} {tokens rest : List Token} {item : Item}
    (h : inlineItem values close seen tokens = .ok (item, rest)) : P tokens item.value := by
  unfold NeonAudit.inlineItem at h
  split at h
  · obtain ⟨⟨value, rest'⟩, hrun, hpair⟩ := Result.of_map_eq_ok h
    cases hpair
    exact hvalues hrun
  · rename_i key after hkey
    split at h
    · rw [item_of_keyedItem h]
      exact hP.null tokens
    · split at h
      · contradiction
      · rename_i value rest' hrun
        rw [item_of_keyedItem h]
        exact hP.mono (hvalues hrun) (suffix_of_splitKey? hkey).1.subset

/-- The items in brackets have values that are handed on. -/
theorem HandedOn.inlineItems (hP : HandedOn P) (hvalues : values.Yields P) {close : Mark}
    {seen : List String} {tokens rest : List Token} {items : List Item}
    (h : inlineItems finish values close seen tokens = .ok (items, rest)) :
    ∀ item ∈ items, P tokens item.value := by
  fun_induction NeonAudit.inlineItems finish values close seen tokens generalizing items rest with
  | case1 =>
    cases h
    exact fun _ hmem => absurd hmem List.not_mem_nil
  | case2 => contradiction
  | case3 seen tokens front _ item rest' hitem =>
    cases h
    exact List.forall_mem_singleton.2
      (hP.mono (hP.inlineItem hvalues hitem) (skipLineBreaks_suffix tokens).subset)
  | case4 => contradiction
  | case5 seen tokens front _ item rest' hitem next hsep _ _ _ =>
    rename_i ih
    obtain ⟨⟨items', rest''⟩, hrun, hpair⟩ := Result.of_map_eq_ok h
    cases hpair
    have hfront := skipLineBreaks_suffix tokens
    have hsuffix := (suffix_of_separation (.inr hsep)).trans
      ((suffix_of_inlineItem hitem).1.trans hfront)
    exact List.forall_mem_cons.2
      ⟨hP.mono (hP.inlineItem hvalues hitem) hfront.subset,
        fun other hmem => hP.mono (ih hrun other hmem) hsuffix.subset⟩

variable {blocks : List Char → Bool → Parser}

/-- The value of an item of a block is handed on. -/
theorem HandedOn.itemValue (hP : HandedOn P) (hvalues : values.Yields P)
    (hblocks : ∀ indent onlyDashes, (blocks indent onlyDashes).Yields P) {indent : List Char}
    {dash : Bool} {tokens rest : List Token} {value : Value}
    (h : itemValue values blocks indent dash tokens = .ok (value, rest)) : P tokens value := by
  unfold NeonAudit.itemValue at h
  split at h
  · cases h
    exact hP.null []
  · rename_i token tail
    have htail := List.subset_cons_self token tail
    split at h
    · split at h
      · cases h
        exact hP.null _
      · split at h
        · contradiction
        · exact hP.mono (hblocks _ _ h) htail
        · split at h
          · exact hP.mono (hblocks _ _ h) htail
          · cases h
            exact hP.null _
        · cases h
          exact hP.null _
    · split at h
      · exact hblocks _ _ h
      · exact hvalues h

/-- The items of a block have values that are handed on. -/
theorem HandedOn.blockItems (hP : HandedOn P) (hvalues : values.Yields P)
    (hblocks : ∀ indent onlyDashes, (blocks indent onlyDashes).Yields P) {indent : List Char}
    {onlyDashes : Bool} {seen : List String} {tokens rest : List Token} {items : List Item}
    (h : blockItems finish values blocks indent onlyDashes seen tokens = .ok (items, rest)) :
    ∀ item ∈ items, P tokens item.value := by
  have hfirst {key? : Option Key} {onlyDashes : Bool} {seen : List String}
      {tokens after rest : List Token} {value : Value} {item : Item}
      (hstart : itemStart? onlyDashes tokens = some (key?, after))
      (hvalue : NeonAudit.itemValue values blocks indent key?.isNone after = .ok (value, rest))
      (hitem : blockItem seen key? value = .ok item) : P tokens item.value := by
    rw [item_of_blockItem hitem]
    exact hP.mono (hP.itemValue hvalues hblocks hvalue) (suffix_of_itemStart? hstart).1.subset
  fun_induction NeonAudit.blockItems finish values blocks indent onlyDashes seen tokens
    generalizing items rest with
  | case1 => contradiction
  | case2 => contradiction
  | case3 => contradiction
  | case4 => contradiction
  | case5 seen tokens key? after hstart value rest' hvalue item hitem rest'' hcont =>
    cases h
    exact List.forall_mem_singleton.2 (hfirst hstart hvalue hitem)
  | case6 seen tokens key? after hstart value rest' hvalue item hitem next hcont _ _ _ =>
    rename_i ih
    obtain ⟨⟨items', rest''⟩, hrun, hpair⟩ := Result.of_map_eq_ok h
    cases hpair
    have hsuffix := (suffix_of_continuation (.inr hcont)).trans
      ((suffix_of_itemValue hvalue).trans (suffix_of_itemStart? hstart).1)
    exact List.forall_mem_cons.2 ⟨hfirst hstart hvalue hitem,
      fun other hmem => hP.mono (ih hrun other hmem) hsuffix.subset⟩

end NeonAudit
