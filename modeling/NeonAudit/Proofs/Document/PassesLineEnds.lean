import NeonAudit.Proofs.Document.Blame
import NeonAudit.Proofs.Token.Coverage

/-!
# Line ends are no faults

No failure to decode is that a line ends early. A value is only read where no line break stands:
inside brackets line breaks are skipped, and between the items of a block a single one is taken. As
line breaks never follow each other, a token is behind it, or the end. So parsers that start within
a line pass all line ends, given that the parsers of what is inside do.
-/

namespace NeonAudit

/-- The failure is that a line ends where more is needed. -/
def DecodeFailure.IsLineEnd : DecodeFailure → Prop
  | .malformed error => error.cause = .unexpectedLineEnd
  | .fault _ => False

/-- No line break is at the front of the tokens. -/
def WithinLine (tokens : List Token) : Prop :=
  tokens.head?.any Token.isLineBreak = false

/-- No line break follows another. -/
def LinesApart (tokens : List Token) : Prop :=
  tokens.IsChain fun a b => ¬(a.isLineBreak ∧ b.isLineBreak)

/-- A parser that starts within a line does not fail at a line end. -/
def Parser.PassesLineEnds (parser : Parser) : Prop :=
  ∀ {tokens failure}, LinesApart tokens → WithinLine tokens →
    parser.run tokens = .error failure → ¬failure.IsLineEnd

/-- Lines are apart in every end of the tokens. -/
theorem LinesApart.suffix {tokens rest : List Token} (h : LinesApart tokens)
    (hsuffix : rest <:+ tokens) : LinesApart rest :=
  List.IsChain.suffix h hsuffix

/-- The tokens behind a line break are within a line. -/
theorem LinesApart.withinLine {token : Token} {rest : List Token}
    (h : LinesApart (token :: rest)) (hbreak : token.isLineBreak = true) : WithinLine rest := by
  cases rest with
  | nil => rfl
  | cons next rest =>
    have hnot := (List.isChain_cons_cons.1 h).1
    rw [hbreak] at hnot
    simpa [WithinLine] using hnot

/-- After the line breaks at the front, tokens are within a line. -/
theorem withinLine_skipLineBreaks (tokens : List Token) : WithinLine (skipLineBreaks tokens) := by
  have hhead := List.head?_dropWhile_not Token.isLineBreak tokens
  unfold WithinLine skipLineBreaks
  cases hfront : (tokens.dropWhile Token.isLineBreak).head? with
  | none => rfl
  | some token =>
    rw [hfront] at hhead
    simpa using hhead

/-- Within a line, what cannot stand at the front is no line end. -/
theorem WithinLine.not_isLineEnd {tokens : List Token} (h : WithinLine tokens) (finish : Position) :
    ¬(unexpected finish tokens).IsLineEnd := by
  cases tokens with
  | nil => exact DecodeError.Cause.noConfusion
  | cons token rest =>
    unfold WithinLine at h
    rw [List.head?_cons, Option.any_some, Token.isLineBreak] at h
    rw [unexpected]
    cases hkind : token.kind with
    | lineBreak indent =>
      rw [hkind] at h
      contradiction
    | _ => exact DecodeError.Cause.noConfusion

/-- A token of any other kind is within a line. -/
theorem withinLine_of_kind {token : Token} (h : ∀ indent, token.kind ≠ .lineBreak indent)
    (rest : List Token) : WithinLine (token :: rest) := by
  unfold WithinLine
  rw [List.head?_cons, Option.any_some, Token.isLineBreak]
  split
  · rename_i indent hkind
    exact absurd hkind (h indent)
  · rfl

/-- Repeating a key is no line end. -/
theorem Key.not_isLineEnd_duplicated (key : Key) : ¬key.duplicated.IsLineEnd :=
  DecodeError.Cause.noConfusion

/-- Reading a literal does not fail at a line end. -/
theorem not_isLineEnd_of_literalValue {raw : String} {failure : DecodeFailure}
    (h : literalValue raw = .error failure) : ¬failure.IsLineEnd := by
  unfold literalValue at h
  cases hraw : Value.ofLiteral raw with
  | error fault =>
    rw [hraw] at h
    cases h
    exact id
  | ok value =>
    rw [hraw] at h
    contradiction

section Inline

variable {finish : Position} {values : Parser} {values? : Option Parser} {tokens : List Token}
  {failure : DecodeFailure}

/-- An item in brackets that starts within a line does not fail at a line end: its value is left out
where the line ends behind its key. -/
theorem not_isLineEnd_of_inlineItem (hvalues : values.PassesLineEnds) {close : Mark}
    {seen : List String} (hapart : LinesApart tokens) (hline : WithinLine tokens)
    (h : inlineItem values close seen tokens = .error failure) : ¬failure.IsLineEnd := by
  unfold inlineItem at h
  split at h
  · exact hvalues hapart hline (Result.of_map_eq_error h)
  · rename_i key after hkey
    split at h
    · exact failure_of_keyedItem h ▸ key.not_isLineEnd_duplicated
    · rename_i hends
      split at h
      · rename_i failure' hrun
        cases h
        refine hvalues (hapart.suffix (suffix_of_splitKey? hkey).1) ?_ hrun
        cases after with
        | nil => rfl
        | cons token rest =>
          rw [endsItem] at hends
          simp only [Bool.or_eq_true, not_or] at hends
          exact eq_false_of_ne_true hends.2
      · exact failure_of_keyedItem h ▸ key.not_isLineEnd_duplicated

/-- What stands without a separator is within a line. -/
theorem withinLine_of_separation_missing {close : Mark} {rest : List Token}
    (h : separation close tokens = .missing rest) : WithinLine rest := by
  have hskip := withinLine_skipLineBreaks tokens
  unfold separation at h
  repeat' split at h
  all_goals try contradiction
  rename_i token rest' heq _ _ _
  cases h
  exact heq ▸ hskip

/-- Items in brackets do not fail at a line end. -/
theorem not_isLineEnd_of_inlineItems (hvalues : values.PassesLineEnds) {close : Mark}
    {seen : List String} (hapart : LinesApart tokens)
    (h : inlineItems finish values close seen tokens = .error failure) : ¬failure.IsLineEnd := by
  fun_induction inlineItems finish values close seen tokens with
  | case1 => contradiction
  | case2 seen tokens front _ failure' hitem =>
    cases h
    exact not_isLineEnd_of_inlineItem hvalues (hapart.suffix (skipLineBreaks_suffix tokens))
      (withinLine_skipLineBreaks tokens) hitem
  | case3 => contradiction
  | case4 seen tokens front _ item rest hitem rest' hsep =>
    cases h
    exact (withinLine_of_separation_missing hsep).not_isLineEnd finish
  | case5 seen tokens front _ item rest hitem next hsep _ _ _ ih =>
    have hsuffix := (suffix_of_separation (.inr hsep)).trans
      ((suffix_of_inlineItem hitem).1.trans (skipLineBreaks_suffix tokens))
    exact ih (hapart.suffix hsuffix) (Result.of_map_eq_error h)

/-- The parser of what is inside brackets, if any, passes line ends. -/
def PassesInside (values? : Option Parser) : Prop :=
  ∀ values ∈ values?, Parser.PassesLineEnds values

/-- Collecting items that have been read does not fail at a line end if reading them does not. -/
theorem not_isLineEnd_of_collected {preferMapping : Bool} {read : Parsed (List Item)}
    (hread : read = .error failure → ¬failure.IsLineEnd)
    (h : collected preferMapping read = .error failure) : ¬failure.IsLineEnd := by
  rcases of_collected_eq_error h with hfailed | ⟨items, rest, -, hcollect⟩
  · exact hread hfailed
  · obtain ⟨rfl, -⟩ := Item.failure_of_collect hcollect
    exact id

/-- A collection in brackets does not fail at a line end. -/
theorem not_isLineEnd_of_bracketed (hvalues : PassesInside values?) {bracket : Bracket}
    {position : Position} (hapart : LinesApart tokens)
    (h : bracketed finish values? bracket position tokens = .error failure) :
    ¬failure.IsLineEnd := by
  cases values? with
  | none =>
    cases h
    exact DecodeError.Cause.noConfusion
  | some inside =>
    exact not_isLineEnd_of_collected (not_isLineEnd_of_inlineItems (hvalues inside rfl) hapart) h

/-- The links of a chain do not fail at a line end. -/
theorem not_isLineEnd_of_entityLinks (hvalues : PassesInside values?) {name : Value}
    {position : Position} (hapart : LinesApart tokens)
    (h : entityLinks finish values? name position tokens = .error failure) :
    ¬failure.IsLineEnd := by
  fun_induction entityLinks finish values? name position tokens with
  | case1 name position tokens failure' hargs =>
    cases h
    exact not_isLineEnd_of_bracketed hvalues hapart hargs
  | case2 => contradiction
  | case3 name position tokens arguments rest hargs raw position' after hlink failure' hraw =>
    cases h
    exact not_isLineEnd_of_literalValue hraw
  | case4 name position tokens arguments rest hargs raw position' after hlink next hraw _ _ ih =>
    have hsuffix := (suffix_of_splitLink? hlink).1.trans (suffix_of_bracketed hargs)
    exact ih (hapart.suffix hsuffix) (Result.of_map_eq_error h)

/-- A value without arguments that starts within a line does not fail at a line end. -/
theorem not_isLineEnd_of_plainValue (hvalues : PassesInside values?) (hapart : LinesApart tokens)
    (hline : WithinLine tokens) (h : plainValue finish values? tokens = .error failure) :
    ¬failure.IsLineEnd := by
  unfold plainValue at h
  split at h
  · cases h
    exact hline.not_isLineEnd finish
  · have hrest := hapart.suffix (List.suffix_cons _ _)
    split at h
    · contradiction
    · exact not_isLineEnd_of_literalValue (Result.of_map_eq_error h)
    · exact not_isLineEnd_of_bracketed hvalues hrest h
    · exact not_isLineEnd_of_bracketed hvalues hrest h
    · cases h
      exact hline.not_isLineEnd finish

/-- A value that starts within a line does not fail at a line end. -/
theorem not_isLineEnd_of_valueWith (hvalues : PassesInside values?) (hapart : LinesApart tokens)
    (hline : WithinLine tokens) (h : valueWith finish values? tokens = .error failure) :
    ¬failure.IsLineEnd := by
  unfold valueWith at h
  split at h
  · rename_i failure' hplain
    cases h
    exact not_isLineEnd_of_plainValue hvalues hapart hline hplain
  · rename_i value rest hplain
    split at h
    · contradiction
    · rename_i position after hargs
      have hsuffix := (suffix_of_splitArguments? hargs).trans (suffix_of_plainValue hplain).1
      exact not_isLineEnd_of_entityLinks hvalues (hapart.suffix hsuffix) (Result.of_map_eq_error h)

end Inline

/-- Inline values pass line ends. -/
theorem inlineValue_passesLineEnds (finish : Position) (depth : Nat) :
    (inlineValue finish depth).PassesLineEnds := by
  induction depth with
  | zero =>
    exact fun hapart hline h =>
      not_isLineEnd_of_valueWith (fun _ hnone => absurd hnone (by simp)) hapart hline h
  | succ depth ih =>
    refine fun hapart hline h =>
      not_isLineEnd_of_valueWith (fun values hvalues => ?_) hapart hline h
    obtain rfl := Option.some.inj hvalues
    exact ih

section Block

variable {finish : Position} {values : Parser} {blocks : List Char → Bool → Parser}
  {tokens : List Token} {indent : List Char} {failure : DecodeFailure}

/-- The value of an item does not fail at a line end. -/
theorem not_isLineEnd_of_itemValue (hvalues : values.PassesLineEnds)
    (hblocks : ∀ indent onlyDashes, (blocks indent onlyDashes).PassesLineEnds) {dash : Bool}
    (hapart : LinesApart tokens) (h : itemValue values blocks indent dash tokens = .error failure) :
    ¬failure.IsLineEnd := by
  unfold itemValue at h
  split at h
  · contradiction
  · rename_i token rest
    have hrest := hapart.suffix (List.suffix_cons token rest)
    split at h
    · rename_i next hkind
      have hline := hapart.withinLine (by rw [Token.isLineBreak, hkind])
      split at h
      · contradiction
      · split at h
        · cases h
          exact DecodeError.Cause.noConfusion
        · exact hblocks _ _ hrest hline h
        · split at h
          · exact hblocks _ _ hrest hline h
          · contradiction
        · contradiction
    · rename_i hkind
      have hline := withinLine_of_kind hkind rest
      split at h
      · exact hblocks _ _ hapart hline h
      · exact hvalues hapart hline h

/-- What follows an item where it cannot is no line end. -/
theorem not_isLineEnd_of_continuation {onlyDashes : Bool}
    (h : continuation finish indent onlyDashes tokens = .broken failure) :
    ¬failure.IsLineEnd := by
  unfold continuation at h
  split at h
  · contradiction
  · rename_i token rest
    split at h
    · split at h
      · contradiction
      · split at h
        · cases h
          exact DecodeError.Cause.noConfusion
        · contradiction
        · cases h
          exact DecodeError.Cause.noConfusion
        · split at h <;> contradiction
    · rename_i hkind
      cases h
      exact (withinLine_of_kind hkind rest).not_isLineEnd finish

/-- The next item of a block starts within its line. -/
theorem withinLine_of_continuation {onlyDashes : Bool} {next : List Token}
    (hapart : LinesApart tokens)
    (h : continuation finish indent onlyDashes tokens = .continued next) : WithinLine next := by
  obtain ⟨lineBreak, rfl, hkind⟩ := exists_of_continuation h
  exact hapart.withinLine (by rw [Token.isLineBreak, hkind])

/-- The items of a block that starts within a line do not fail at a line end. -/
theorem not_isLineEnd_of_blockItems (hvalues : values.PassesLineEnds)
    (hblocks : ∀ indent onlyDashes, (blocks indent onlyDashes).PassesLineEnds) {onlyDashes : Bool}
    {seen : List String} (hapart : LinesApart tokens) (hline : WithinLine tokens)
    (h : blockItems finish values blocks indent onlyDashes seen tokens = .error failure) :
    ¬failure.IsLineEnd := by
  fun_induction blockItems finish values blocks indent onlyDashes seen tokens with
  | case1 seen tokens hstart =>
    cases h
    exact hline.not_isLineEnd finish
  | case2 seen tokens key? after hstart failure' hvalue =>
    cases h
    exact not_isLineEnd_of_itemValue hvalues hblocks
      (hapart.suffix (suffix_of_itemStart? hstart).1) hvalue
  | case3 seen tokens key? after hstart value rest hvalue failure' hitem =>
    cases h
    unfold blockItem at hitem
    split at hitem
    · contradiction
    · split at hitem
      · cases hitem
        exact Key.not_isLineEnd_duplicated _
      · contradiction
  | case4 seen tokens key? after hstart value rest hvalue item hitem failure' hcont =>
    cases h
    exact not_isLineEnd_of_continuation hcont
  | case5 => contradiction
  | case6 seen tokens key? after hstart value rest hvalue item hitem next hcont _ _ _ ih =>
    have hrest := hapart.suffix ((suffix_of_itemValue hvalue).trans (suffix_of_itemStart? hstart).1)
    exact ih (hrest.suffix (suffix_of_continuation (.inr hcont)))
      (withinLine_of_continuation hrest hcont) (Result.of_map_eq_error h)

end Block

/-- Blocks pass line ends. -/
theorem block_passesLineEnds (finish : Position) (depth : Nat) (indent : List Char)
    (onlyDashes : Bool) : (block finish depth indent onlyDashes).PassesLineEnds := by
  induction depth generalizing indent onlyDashes with
  | zero =>
    intro tokens failure _ _ h
    cases h
    exact DecodeError.Cause.noConfusion
  | succ depth ih =>
    intro tokens failure hapart hline h
    change blockWith finish (inlineValue finish depth) (block finish depth) indent onlyDashes
      tokens = .error failure at h
    unfold blockWith at h
    split at h
    · exact inlineValue_passesLineEnds finish depth hapart hline h
    · exact not_isLineEnd_of_collected
        (not_isLineEnd_of_blockItems (inlineValue_passesLineEnds finish depth) ih hapart hline) h

/-- Tokens that start with a line break, of which none follows another, are not refused for a line
end. -/
theorem not_isLineEnd_of_ofTokens {stream : TokenStream} {failure : DecodeFailure}
    (hopening : stream.tokens.head?.any Token.isLineBreak = true) (hapart : LinesApart stream.tokens)
    (h : Value.ofTokens stream = .error failure) : ¬failure.IsLineEnd := by
  have hrest : WithinLine (splitOpening stream.tokens).2 := by
    cases htokens : stream.tokens with
    | nil => rfl
    | cons token rest =>
      rw [htokens] at hopening hapart
      rw [splitOpening]
      split <;> exact hapart.withinLine hopening
  have hsuffix := splitOpening_suffix stream.tokens
  unfold Value.ofTokens at h
  dsimp only at h
  split at h
  · contradiction
  · split at h
    · rename_i failure' hrun
      cases h
      exact block_passesLineEnds _ _ _ _ (hapart.suffix hsuffix) hrest hrun
    · split at h
      · contradiction
      · cases h
        exact (withinLine_skipLineBreaks _).not_isLineEnd _

/-- A fault in a string is that it is not closed or that an escape names no character. -/
theorem Piece.cause_of_cutString {quote : Char} {rest : List Char} {cause : DecodeError.Cause}
    (h : cutString quote rest = .error cause) :
    cause = .unterminatedString ∨ ∃ sequence, cause = .invalidEscape sequence := by
  have hresolve {raw : List Char} (h : resolve quote raw = .error cause) :
      ∃ sequence, cause = .invalidEscape sequence := by
    unfold resolve at h
    split at h
    · cases hraw : Text.unescape raw with
      | ok value =>
        rw [hraw] at h
        contradiction
      | error sequence =>
        rw [hraw] at h
        exact ⟨_, (Except.error.inj h).symm⟩
    · contradiction
  unfold cutString at h
  repeat' split at h
  all_goals first
    | exact .inl (Except.error.inj h).symm
    | exact .inr (hresolve (Result.of_map_eq_error h))

/-- A fault in a token is no line end. -/
theorem Piece.ne_unexpectedLineEnd_of_cut {c : Char} {rest : List Char} {cause : DecodeError.Cause}
    (h : cut c rest = .error cause) : cause ≠ .unexpectedLineEnd := by
  unfold cut at h
  repeat' split at h
  all_goals try contradiction
  · rcases cause_of_cutString h with rfl | ⟨sequence, rfl⟩ <;> exact DecodeError.Cause.noConfusion
  · cases h
    exact DecodeError.Cause.noConfusion

/-- No document is refused because a line ends early. -/
theorem not_isLineEnd_of_decode {source : String} {failure : DecodeFailure}
    (h : decode source = .error failure) : ¬failure.IsLineEnd := by
  rw [decode, decodeChars] at h
  split at h
  · rename_i error hstream
    cases h
    obtain ⟨pieces, c, rest, -, hfault, -⟩ :=
      Piece.cuts_of_ofSource_eq_error (Result.of_map_eq_error hstream)
    exact Piece.ne_unexpectedLineEnd_of_cut hfault
  · rename_i stream hstream
    obtain ⟨words, last, hcovers⟩ := exists_covers_of_ofSource hstream
    exact not_isLineEnd_of_ofTokens hcovers.opening hcovers.apart h

end NeonAudit
