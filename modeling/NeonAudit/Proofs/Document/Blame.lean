import NeonAudit.Proofs.Document.Written

/-!
# What a failed parser points at

A parser that fails blames a token it was given or the end of the text. `Blames` lists for every
cause what stands at its position. A parser is honest if all its failures are of this kind; a parser
that reads inside brackets or blocks is honest if those are that read what is inside, so honesty
follows by recursion on the number of levels that may still be opened.
-/

namespace NeonAudit

/-- What stands at the position of a failure to read tokens before the given end. -/
inductive Blames (finish : Position) (tokens : List Token) : DecodeFailure → Prop
  | zone {token raw fault} : token ∈ tokens → token.kind = .literal raw →
      Value.ofLiteral raw = .error fault → Blames finish tokens (.fault (.zone fault))
  | index : LacksIndices tokens → Blames finish tokens (.fault .index)
  | unexpectedEnd : Blames finish tokens (.at finish .unexpectedEnd)
  | unexpected {token} : token ∈ tokens → token.isLineBreak = false →
      Blames finish tokens (.at token.position (.unexpected token.text))
  | lineEnd {token} : token ∈ tokens → Blames finish tokens (.at token.position .unexpectedLineEnd)
  | duplicated {token name} : token ∈ tokens → token.key? = some name →
      Blames finish tokens (.at token.position (.duplicatedKey name))
  | indentation {token cause} : token ∈ tokens → cause ∈ [.badIndentation, .mixedIndentation] →
      Blames finish tokens (.at token.position cause)
  | tooDeep {token} : token ∈ tokens → Blames finish tokens (.at token.position .tooDeep)
  | tooDeepAtEnd : Blames finish tokens (.at finish .tooDeep)

/-- What is blamed among some tokens is blamed with more tokens before them. -/
theorem Blames.mono {finish : Position} {tokens tokens' : List Token} {failure : DecodeFailure}
    (h : Blames finish tokens failure) (hsuffix : tokens <:+ tokens') :
    Blames finish tokens' failure := by
  have hsub := hsuffix.subset
  cases h with
  | zone hmem hkind hraw => exact .zone (hsub hmem) hkind hraw
  | index hlacks => exact .index (hlacks.mono hsuffix)
  | unexpectedEnd => exact .unexpectedEnd
  | unexpected hmem hbreak => exact .unexpected (hsub hmem) hbreak
  | lineEnd hmem => exact .lineEnd (hsub hmem)
  | duplicated hmem hkey => exact .duplicated (hsub hmem) hkey
  | indentation hmem hcause => exact .indentation (hsub hmem) hcause
  | tooDeep hmem => exact .tooDeep (hsub hmem)
  | tooDeepAtEnd => exact .tooDeepAtEnd

/-- Every failure of the parser blames a token it was given or the end of the text. -/
def Parser.Honest (finish : Position) (parser : Parser) : Prop :=
  ∀ {tokens failure}, parser.run tokens = .error failure → Blames finish tokens failure

/-- Finding the first token where it cannot stand blames that token, or the end. -/
theorem blames_unexpected (finish : Position) (tokens : List Token) :
    Blames finish tokens (unexpected finish tokens) := by
  cases tokens with
  | nil => exact .unexpectedEnd
  | cons token rest =>
    have hmem : token ∈ token :: rest := List.mem_cons_self
    cases hkind : token.kind with
    | lineBreak indent =>
      rw [NeonAudit.unexpected, hkind]
      exact .lineEnd hmem
    | literal raw =>
      rw [NeonAudit.unexpected, hkind]
      exact .unexpected hmem (by rw [Token.isLineBreak, hkind])
    | string value =>
      rw [NeonAudit.unexpected, hkind]
      exact .unexpected hmem (by rw [Token.isLineBreak, hkind])
    | mark mark =>
      rw [NeonAudit.unexpected, hkind]
      exact .unexpected hmem (by rw [Token.isLineBreak, hkind])

/-- A key is spelled by the first token. -/
theorem exists_of_splitKey? {separators : List Mark} {tokens rest : List Token} {key : Key}
    (h : splitKey? separators tokens = some (key, rest)) :
    ∃ token ∈ tokens, token.position = key.position ∧ token.key? = some key.name := by
  unfold splitKey? at h
  split at h
  · rename_i token separator after
    split at h
    · rename_i name mark hname _
      split at h
      · cases h
        exact ⟨token, List.mem_cons_self, rfl, hname⟩
      · contradiction
    · contradiction
  · contradiction

/-- Repeating a key blames the token that spells it. -/
theorem blames_duplicated {separators : List Mark} {tokens rest : List Token} {key : Key}
    (h : splitKey? separators tokens = some (key, rest)) (finish : Position) :
    Blames finish tokens key.duplicated := by
  obtain ⟨token, hmem, hposition, hname⟩ := exists_of_splitKey? h
  rw [Key.duplicated, ← hposition]
  exact .duplicated hmem hname

/-- Collecting items fails only for want of indices. -/
theorem blames_of_collect {finish : Position} {tokens : List Token} {items : List Item}
    (hwritten : Written tokens items) {preferMapping : Bool} {failure : DecodeFailure}
    (h : Item.collect preferMapping items = .error failure) : Blames finish tokens failure := by
  obtain ⟨rfl, -, hruns⟩ := Item.collect_eq_error_iff.1 h
  exact .index (hwritten.lacksIndices hruns)

section Inline

variable {finish : Position} {values : Parser}

/-- A keyed item fails only by repeating its key. -/
theorem failure_of_keyedItem {seen : List String} {key : Key} {value : Value} {rest : List Token}
    {failure : DecodeFailure} (h : keyedItem seen key value rest = .error failure) :
    failure = key.duplicated := by
  unfold keyedItem at h
  split at h
  · exact (Except.error.inj h).symm
  · contradiction

/-- An item in brackets blames its tokens. -/
theorem blames_of_inlineItem (hvalues : values.Honest finish) {close : Mark} {seen : List String}
    {tokens : List Token} {failure : DecodeFailure}
    (h : inlineItem values close seen tokens = .error failure) : Blames finish tokens failure := by
  unfold inlineItem at h
  split at h
  · exact hvalues (Result.of_map_eq_error h)
  · rename_i key after hkey
    split at h
    · exact failure_of_keyedItem h ▸ blames_duplicated hkey finish
    · split at h
      · rename_i failure' hrun
        cases h
        exact (hvalues hrun).mono (suffix_of_splitKey? hkey).1
      · exact failure_of_keyedItem h ▸ blames_duplicated hkey finish

/-- What stands without a separator is an end of the tokens after an item. -/
theorem suffix_of_separation_missing {close : Mark} {tokens rest : List Token}
    (h : separation close tokens = .missing rest) : rest <:+ tokens := by
  have hskip := skipLineBreaks_suffix tokens
  unfold separation at h
  repeat' split at h
  all_goals try contradiction
  rename_i token rest' heq _ _ _
  cases h
  exact heq ▸ hskip

/-- The items in brackets blame their tokens. -/
theorem blames_of_inlineItems (hvalues : values.Honest finish) {close : Mark} {seen : List String}
    {tokens : List Token} {failure : DecodeFailure}
    (h : inlineItems finish values close seen tokens = .error failure) :
    Blames finish tokens failure := by
  fun_induction inlineItems finish values close seen tokens with
  | case1 => contradiction
  | case2 seen tokens front _ failure' hitem =>
    cases h
    exact (blames_of_inlineItem hvalues hitem).mono (skipLineBreaks_suffix tokens)
  | case3 => contradiction
  | case4 seen tokens front _ item rest hitem rest' hsep =>
    cases h
    have hsuffix := (suffix_of_separation_missing hsep).trans
      ((suffix_of_inlineItem hitem).1.trans (skipLineBreaks_suffix tokens))
    exact (blames_unexpected finish rest').mono hsuffix
  | case5 seen tokens front _ item rest hitem next hsep _ _ _ ih =>
    have hsuffix := (suffix_of_separation (.inr hsep)).trans
      ((suffix_of_inlineItem hitem).1.trans (skipLineBreaks_suffix tokens))
    exact (ih (Result.of_map_eq_error h)).mono hsuffix

/-- What is inside brackets is read by an honest parser, if any. -/
def HonestInside (finish : Position) (values? : Option Parser) : Prop :=
  ∀ values ∈ values?, Parser.Honest finish values

variable {values? : Option Parser}

/-- A collection in brackets blames its opening bracket or its tokens. -/
theorem blames_of_bracketed (hvalues : HonestInside finish values?) {bracket : Bracket}
    {token : Token} {tokens : List Token} {failure : DecodeFailure}
    (h : bracketed finish values? bracket token.position tokens = .error failure) :
    Blames finish (token :: tokens) failure := by
  cases values? with
  | none =>
    cases h
    exact .tooDeep List.mem_cons_self
  | some inside =>
    refine Blames.mono ?_ (List.suffix_cons token tokens)
    rcases of_collected_eq_error h with hrun | ⟨items, rest, hrun, hcollect⟩
    · exact blames_of_inlineItems (hvalues inside rfl) hrun
    · exact blames_of_collect (written_of_inlineItems hrun) hcollect

/-- Reading a literal fails only for its zone. -/
theorem blames_of_literalValue {raw : String} {failure : DecodeFailure} {tokens : List Token}
    {token : Token} (hmem : token ∈ tokens) (hkind : token.kind = .literal raw)
    (h : literalValue raw = .error failure) : Blames finish tokens failure := by
  unfold literalValue at h
  cases hraw : Value.ofLiteral raw with
  | error fault =>
    rw [hraw] at h
    cases h
    exact .zone hmem hkind hraw
  | ok value =>
    rw [hraw] at h
    contradiction

/-- A literal with arguments is followed by the bracket that opens them. -/
theorem exists_of_splitLink? {tokens rest : List Token} {raw : String} {position : Position}
    (h : splitLink? tokens = some (raw, position, rest)) :
    ∃ token paren, token.kind = .literal raw ∧ position = paren.position ∧
      tokens = token :: paren :: rest := by
  unfold splitLink? at h
  split at h
  · rename_i token paren rest'
    split at h
    · rename_i raw' hkind
      split at h
      · cases h
        exact ⟨token, paren, hkind, rfl, rfl⟩
      · contradiction
    · contradiction
  · contradiction

/-- The opening of arguments is the bracket at the front. -/
theorem exists_of_splitArguments? {tokens rest : List Token} {position : Position}
    (h : splitArguments? tokens = some (position, rest)) :
    ∃ paren, position = paren.position ∧ tokens = paren :: rest := by
  unfold splitArguments? at h
  split at h
  · contradiction
  · split at h
    · cases h
      exact ⟨_, rfl, rfl⟩
    · contradiction

/-- The links of a chain blame the bracket that opens the arguments of the first one or their
tokens. -/
theorem blames_of_entityLinks (hvalues : HonestInside finish values?) {name : Value}
    {position : Position} {paren : Token} {tokens : List Token} {failure : DecodeFailure}
    (hparen : position = paren.position)
    (h : entityLinks finish values? name position tokens = .error failure) :
    Blames finish (paren :: tokens) failure := by
  fun_induction entityLinks finish values? name position tokens generalizing paren with
  | case1 name position tokens failure' hargs =>
    cases h
    exact blames_of_bracketed hvalues (hparen ▸ hargs)
  | case2 => contradiction
  | case3 name position tokens arguments rest hargs raw position' after hlink failure' hraw =>
    cases h
    obtain ⟨token, paren', hkind, -, rfl⟩ := exists_of_splitLink? hlink
    have htail := (suffix_of_bracketed hargs).trans (List.suffix_cons paren tokens)
    exact blames_of_literalValue (htail.subset List.mem_cons_self) hkind hraw
  | case4 name position tokens arguments rest hargs raw position' after hlink next hraw _ _ ih =>
    obtain ⟨token, paren', -, hparen', rfl⟩ := exists_of_splitLink? hlink
    have htail := (suffix_of_bracketed hargs).trans (List.suffix_cons paren tokens)
    exact (ih hparen' (Result.of_map_eq_error h)).mono
      ((List.suffix_cons token _).trans htail)

/-- A value without arguments blames its tokens. -/
theorem blames_of_plainValue (hvalues : HonestInside finish values?) {tokens : List Token}
    {failure : DecodeFailure} (h : plainValue finish values? tokens = .error failure) :
    Blames finish tokens failure := by
  unfold plainValue at h
  split at h
  · cases h
    exact .unexpectedEnd
  · split at h
    · contradiction
    · rename_i raw hkind
      exact blames_of_literalValue List.mem_cons_self hkind (Result.of_map_eq_error h)
    · exact blames_of_bracketed hvalues h
    · exact blames_of_bracketed hvalues h
    · cases h
      exact blames_unexpected finish _

/-- A value with the arguments that follow it blames its tokens. -/
theorem blames_of_valueWith (hvalues : HonestInside finish values?) {tokens : List Token}
    {failure : DecodeFailure} (h : valueWith finish values? tokens = .error failure) :
    Blames finish tokens failure := by
  unfold valueWith at h
  split at h
  · rename_i failure' hplain
    cases h
    exact blames_of_plainValue hvalues hplain
  · rename_i value rest hplain
    split at h
    · contradiction
    · rename_i position after hargs
      obtain ⟨paren, hparen, rfl⟩ := exists_of_splitArguments? hargs
      have hblames := blames_of_entityLinks hvalues hparen (Result.of_map_eq_error h)
      exact hblames.mono (suffix_of_plainValue hplain).1

end Inline

/-- Inline values are read honestly. -/
theorem inlineValue_honest (finish : Position) (depth : Nat) :
    (inlineValue finish depth).Honest finish := by
  induction depth with
  | zero => exact fun h => blames_of_valueWith (fun _ hnone => absurd hnone (by simp)) h
  | succ depth ih =>
    refine fun h => blames_of_valueWith (fun values hvalues => ?_) h
    obtain rfl := Option.some.inj hvalues
    exact ih

section Block

variable {finish : Position} {values : Parser} {blocks : List Char → Bool → Parser}

/-- The value of an item blames its tokens. -/
theorem blames_of_itemValue (hvalues : values.Honest finish)
    (hblocks : ∀ indent onlyDashes, (blocks indent onlyDashes).Honest finish) {indent : List Char}
    {dash : Bool} {tokens : List Token} {failure : DecodeFailure}
    (h : itemValue values blocks indent dash tokens = .error failure) :
    Blames finish tokens failure := by
  unfold itemValue at h
  split at h
  · contradiction
  · rename_i token rest
    have hrest := List.suffix_cons token rest
    split at h
    · split at h
      · contradiction
      · split at h
        · cases h
          exact .indentation List.mem_cons_self (List.mem_cons_of_mem _ List.mem_cons_self)
        · exact (hblocks _ _ h).mono hrest
        · split at h
          · exact (hblocks _ _ h).mono hrest
          · contradiction
        · contradiction
    · split at h
      · exact hblocks _ _ h
      · exact hvalues h

/-- What follows an item where it cannot is blamed. -/
theorem blames_of_continuation {indent : List Char} {onlyDashes : Bool} {tokens : List Token}
    {failure : DecodeFailure}
    (h : continuation finish indent onlyDashes tokens = .broken failure) :
    Blames finish tokens failure := by
  unfold continuation at h
  split at h
  · contradiction
  · split at h
    · split at h
      · contradiction
      · split at h
        · cases h
          exact .indentation List.mem_cons_self (List.mem_cons_of_mem _ List.mem_cons_self)
        · contradiction
        · cases h
          exact .indentation List.mem_cons_self List.mem_cons_self
        · split at h <;> contradiction
    · cases h
      exact blames_unexpected finish _

/-- An item of a block fails only by repeating its key. -/
theorem blames_of_blockItem {seen : List String} {key? : Option Key} {value : Value}
    {tokens rest : List Token} {onlyDashes : Bool} {failure : DecodeFailure}
    (hstart : itemStart? onlyDashes tokens = some (key?, rest))
    (h : blockItem seen key? value = .error failure) : Blames finish tokens failure := by
  unfold blockItem at h
  split at h
  · contradiction
  · split at h
    · cases h
      exact blames_duplicated (splitKey?_of_itemStart? hstart) finish
    · contradiction

/-- The items of a block blame their tokens. -/
theorem blames_of_blockItems (hvalues : values.Honest finish)
    (hblocks : ∀ indent onlyDashes, (blocks indent onlyDashes).Honest finish) {indent : List Char}
    {onlyDashes : Bool} {seen : List String} {tokens : List Token} {failure : DecodeFailure}
    (h : blockItems finish values blocks indent onlyDashes seen tokens = .error failure) :
    Blames finish tokens failure := by
  fun_induction blockItems finish values blocks indent onlyDashes seen tokens with
  | case1 seen tokens hstart =>
    cases h
    exact blames_unexpected finish tokens
  | case2 seen tokens key? after hstart failure' hvalue =>
    cases h
    exact (blames_of_itemValue hvalues hblocks hvalue).mono (suffix_of_itemStart? hstart).1
  | case3 seen tokens key? after hstart value rest hvalue failure' hitem =>
    cases h
    exact blames_of_blockItem hstart hitem
  | case4 seen tokens key? after hstart value rest hvalue item hitem failure' hcont =>
    cases h
    have hsuffix := (suffix_of_itemValue hvalue).trans (suffix_of_itemStart? hstart).1
    exact (blames_of_continuation hcont).mono hsuffix
  | case5 => contradiction
  | case6 seen tokens key? after hstart value rest hvalue item hitem next hcont _ _ _ ih =>
    have hsuffix := (suffix_of_continuation (.inr hcont)).trans
      ((suffix_of_itemValue hvalue).trans (suffix_of_itemStart? hstart).1)
    exact (ih (Result.of_map_eq_error h)).mono hsuffix

end Block

/-- Blocks are read honestly. -/
theorem block_honest (finish : Position) (depth : Nat) (indent : List Char) (onlyDashes : Bool) :
    (block finish depth indent onlyDashes).Honest finish := by
  induction depth generalizing indent onlyDashes with
  | zero =>
    intro tokens failure h
    cases h
    cases tokens with
    | nil => exact .tooDeepAtEnd
    | cons token rest => exact .tooDeep List.mem_cons_self
  | succ depth ih =>
    intro tokens failure h
    change blockWith finish (inlineValue finish depth) (block finish depth) indent onlyDashes
      tokens = .error failure at h
    unfold blockWith at h
    split at h
    · exact inlineValue_honest finish depth h
    · rcases of_collected_eq_error h with hrun | ⟨items, rest, hrun, hcollect⟩
      · exact blames_of_blockItems (inlineValue_honest finish depth) ih hrun
      · exact blames_of_collect (written_of_blockItems hrun) hcollect

/-- The tokens after the opening of a document are an end of its tokens. -/
theorem splitOpening_suffix (tokens : List Token) : (splitOpening tokens).2 <:+ tokens := by
  unfold splitOpening
  split
  · exact List.nil_suffix
  · split <;> exact List.suffix_cons _ _

/-- A document that cannot be read blames one of its tokens or its end. -/
theorem blames_of_ofTokens {stream : TokenStream} {failure : DecodeFailure}
    (h : Value.ofTokens stream = .error failure) : Blames stream.finish stream.tokens failure := by
  have hopening := splitOpening_suffix stream.tokens
  unfold Value.ofTokens at h
  split at h
  rename_i indent tokens heq
  rw [heq] at hopening
  split at h
  · contradiction
  · split at h
    · rename_i failure' hrun
      cases h
      exact (block_honest _ _ _ _ hrun).mono hopening
    · rename_i value rest hrun
      have hsuffix := (skipLineBreaks_suffix rest).trans ((Parser.consumes _ hrun).1.trans hopening)
      dsimp only at h
      split at h
      · contradiction
      · cases h
        exact (blames_unexpected _ _).mono hsuffix

end NeonAudit
