import NeonAudit.Proofs.Document.Relined

/-!
# Line ends of a document

The lines of a document may end in a line feed with or without a carriage return before it. A string
that spans lines is the only token with line ends in its spelling, and what it denotes does not tell
how its lines end. So changing the line ends of a document changes neither its value nor the place
of its error; only the spelling of a string that stands where it cannot stand shows in the message.
-/

namespace NeonAudit

open Text (Relined)

namespace Text

/-- The text with a carriage return before each line feed. -/
def withReturns (text : List Char) : List Char :=
  text.flatMap fun c => if c = '\n' then ['\r', '\n'] else [c]

/-- The text with all its carriage returns left out. -/
def dropReturns (text : List Char) : List Char :=
  text.filter (· ≠ '\r')

/-- A text is relined by carriage returns before its line feeds. -/
theorem relined_withReturns (text : List Char) : Relined [] text (withReturns text) := by
  induction text with
  | nil => exact .nil
  | cons c text ih =>
    rw [withReturns, List.flatMap_cons]
    by_cases hc : c = '\n'
    · rw [if_pos hc, hc]
      exact .withReturn ih
    · rw [if_neg hc]
      exact .char hc ih

/-- A text is relined without any change. -/
theorem Relined.refl (text : List Char) : Relined [] text text := by
  induction text with
  | nil => exact .nil
  | cons c text ih =>
    by_cases hc : c = '\n'
    · rw [hc]
      exact .lineFeed ih
    · exact .char hc ih

/-- The texts are the same without their carriage returns. -/
def EqUpToReturns (text other : List Char) : Prop :=
  dropReturns other = dropReturns text

/-- A text is the same as itself. -/
theorem EqUpToReturns.refl (text : List Char) : EqUpToReturns text text :=
  Eq.refl (dropReturns text)

/-- The line ends of a text do not show without carriage returns. -/
theorem Relined.eqUpToReturns {text other : List Char} (h : Relined [] text other) :
    EqUpToReturns text other := by
  induction h with
  | nil => rfl
  | char _ _ ih =>
    unfold EqUpToReturns dropReturns at ih ⊢
    rw [List.filter_cons, List.filter_cons, ih]
  | lineFeed _ ih => exact congrArg ('\n' :: ·) ih
  | withReturn _ ih => exact congrArg ('\n' :: ·) ih

/-- A line without carriage returns is as it is with one at its end. -/
theorem withoutReturn_of_notMem {line : List Char} (h : '\r' ∉ line) :
    withoutReturn line = line ∧ withoutReturn (line ++ ['\r']) = line := by
  constructor
  · exact if_neg fun hlast => h (List.mem_of_getLast? hlast)
  · rw [withoutReturn, List.getLast?_concat, if_pos rfl, List.dropLast_concat]

end Text

namespace Piece

/-- A line break with or without a carriage return is at the front of the same texts. -/
theorem afterLineBreak?_relined {text other : List Char} (hreturn : '\r' ∉ text)
    (h : Relined [] text other) :
    Option.Rel (fun found found' => Relined [] found.1 found'.1 ∧ Relined [] found.2 found'.2)
      (afterLineBreak? text) (afterLineBreak? other) := by
  cases h with
  | nil => exact .none
  | @char c text other hc h =>
    have hcr : c ≠ '\r' := fun heq => hreturn (heq ▸ List.mem_cons_self)
    have hnone (rest : List Char) : afterLineBreak? (c :: rest) = none := by
      unfold afterLineBreak?
      split
      · rename_i heq
        exact absurd (List.cons.inj heq).1 hc
      · rename_i heq
        exact absurd (List.cons.inj heq).1 hcr
      · rfl
    rw [hnone, hnone]
    exact .none
  | lineFeed h => exact .some ⟨.refl ['\n'], h⟩
  | withReturn h => exact .some ⟨.withReturn .nil, h⟩

/-- The second lines have other line ends than the first ones, and so does the text after them. -/
structure Lines.Relined (found other : Lines) : Prop where
  /-- The lines are the same without carriage returns at their ends. -/
  lines : other.lines.map Text.withoutReturn = found.lines.map Text.withoutReturn
  /-- The spellings have other line ends. -/
  text : Text.Relined [] found.text other.text
  /-- The text after the lines has other line ends. -/
  rest : Text.Relined [] found.rest other.rest

/-- Lines stay the same with another line before them, whatever its line end. -/
theorem Lines.Relined.map_cons {found? other? : Option Lines} {line line' : List Char}
    (h : Option.Rel Lines.Relined found? other?)
    (hline : Text.withoutReturn line' = Text.withoutReturn line)
    (hspelled : ∀ {rest rest'}, Text.Relined [] rest rest' →
      Text.Relined [] (line ++ '\n' :: rest) (line' ++ '\n' :: rest')) :
    Option.Rel Lines.Relined
      (found?.map fun more => ⟨line :: more.lines, line ++ '\n' :: more.text, more.rest⟩)
      (other?.map fun more => ⟨line' :: more.lines, line' ++ '\n' :: more.text, more.rest⟩) := by
  cases h with
  | none => exact .none
  | some h =>
    refine .some ⟨?_, hspelled h.text, h.rest⟩
    rw [List.map_cons, List.map_cons, hline, h.lines]

/-- The lines of a string end at the same place of a text with other line ends. -/
theorem quotedLines?_relined {quote : Char} {text other : List Char} (hquote : quote ≠ '\n')
    (hquote' : quote ≠ '\r') (hreturn : '\r' ∉ text) (h : Relined [] text other) :
    Option.Rel Lines.Relined (quotedLines? quote text) (quotedLines? quote other) := by
  have hthree := afterThree?_relined hquote hquote' h.dropWhile_isIndentation
  generalize hclose : afterThree? quote (text.dropWhile isIndentation) = closed at hthree
  generalize hclose' : afterThree? quote (other.dropWhile isIndentation) = closed' at hthree
  cases hthree with
  | some hrest =>
    rw [quotedLines?_close hclose, quotedLines?_close hclose', h.takeWhile_isIndentation]
    exact .some ⟨rfl, .refl _, hrest⟩
  | none =>
    rcases h.line with ⟨hline, rfl⟩ | ⟨line, rest, rest', rfl, hline, hrest, hother⟩
    · rw [quotedLines?_end hline hclose]
      exact .none
    · simp only [List.mem_append, List.mem_cons, not_or] at hreturn
      obtain ⟨hreturn, -, hreturn'⟩ := hreturn
      have hmore := quotedLines?_relined hquote hquote' hreturn' hrest
      rw [quotedLines?_line hline hclose]
      rw [List.nil_append] at hother
      rcases hother with rfl | rfl
      · rw [quotedLines?_line hline hclose']
        exact Lines.Relined.map_cons hmore rfl fun h => (Relined.refl line).append (.lineFeed h)
      · -- The carriage return is the last character of the line.
        have hline' : '\n' ∉ line ++ ['\r'] := by simpa using hline
        have hsame := Text.withoutReturn_of_notMem hreturn
        rw [List.append_cons] at hclose' ⊢
        rw [quotedLines?_line hline' hclose']
        refine Lines.Relined.map_cons hmore (hsame.2.trans hsame.1.symm) fun h => ?_
        rw [← List.append_cons]
        exact (Relined.refl line).append (.withReturn h)
termination_by text.length

/-- The first line break of a string that spans lines and its lines end at the same place of a text
with other line ends. -/
theorem bind_quotedLines?_relined {quote : Char} {text other : List Char} (hquote : quote ≠ '\n')
    (hquote' : quote ≠ '\r') (hreturn : '\r' ∉ text) (h : Relined [] text other) :
    Option.Rel (fun found found' => Relined [] found.1 found'.1 ∧ Lines.Relined found.2 found'.2)
      ((afterLineBreak? text).bind fun (opening, rest) =>
        (quotedLines? quote rest).map fun found => (opening, found))
      ((afterLineBreak? other).bind fun (opening, rest) =>
        (quotedLines? quote rest).map fun found => (opening, found)) := by
  have hbreak := afterLineBreak?_relined hreturn h
  generalize hbefore : afterLineBreak? text = before at hbreak ⊢
  generalize afterLineBreak? other = before' at hbreak ⊢
  cases hbreak with
  | none => exact .none
  | @some found found' hfound =>
    obtain ⟨opening, rest⟩ := found
    obtain ⟨opening', rest'⟩ := found'
    have hrest : '\r' ∉ rest := fun hmem =>
      hreturn (append_of_afterLineBreak? hbefore ▸ List.mem_append_right opening hmem)
    have hlines := quotedLines?_relined hquote hquote' hrest hfound.2
    rw [Option.bind_some, Option.bind_some]
    dsimp only
    generalize quotedLines? quote rest = lines at hlines ⊢
    generalize quotedLines? quote rest' = lines' at hlines ⊢
    cases hlines with
    | none => exact .none
    | some hlines => exact .some ⟨hfound.1, hlines⟩

/-- A string is cut off a text with other line ends too. -/
theorem cutString_lineEnds {quote : Char} {text other : List Char}
    (hquote : quote = '\x27' ∨ quote = '"') (hreturn : '\r' ∉ text) (h : Relined [] text other) :
    CutsAlike [] Text.EqUpToReturns (cutString quote text) (cutString quote other) := by
  have hline : quote ≠ '\n' := by rcases hquote with rfl | rfl <;> decide
  have hreturn' : quote ≠ '\r' := by rcases hquote with rfl | rfl <;> decide
  cases hthree : afterThree? quote (quote :: text) with
  | none => exact cutString_relined Text.EqUpToReturns.refl hquote hthree h
  | some inner =>
    have hinner : '\r' ∉ inner := fun hmem => hreturn <| by
      rw [← (List.cons.inj (append_of_afterThree? hthree)).2]
      exact List.mem_cons_of_mem _ (List.mem_cons_of_mem _ hmem)
    have hrel := afterThree?_relined hline hreturn' (.char hline h)
    rw [hthree] at hrel
    generalize hother : afterThree? quote (quote :: other) = closed at hrel
    cases hrel with
    | some hrest =>
      have hfound := bind_quotedLines?_relined hline hreturn' hinner hrest
      rw [cutString, cutString, hthree, hother]
      dsimp only
      generalize (afterLineBreak? inner).bind _ = found at hfound ⊢
      generalize (afterLineBreak? _).bind _ = found' at hfound ⊢
      cases hfound with
      | none => exact .fault
      | @some found found' hfound =>
        obtain ⟨opening, found⟩ := found
        obtain ⟨opening', found'⟩ := found'
        obtain ⟨hopening, hlines⟩ := hfound
        have hjoin : joinLines found'.lines = joinLines found.lines := by
          rw [joinLines, joinLines, hlines.lines]
        dsimp only
        rw [hjoin]
        cases resolve quote (joinLines found.lines) with
        | error cause => exact .fault
        | ok value =>
          have hspelled : Relined [] (quote :: quote :: quote :: opening ++ found.text)
              (quote :: quote :: quote :: opening' ++ found'.text) :=
            .char hline (.char hline (.char hline (hopening.append hlines.text)))
          exact .lexeme (fun _ => Token.Kind.noConfusion) hspelled.eqUpToReturns hspelled
            hlines.rest

/-- A source is cut as with other line ends. -/
theorem cut_lineEnds {c : Char} {text other : List Char} (hc : c ≠ '\n') (hreturn : '\r' ∉ text)
    (h : Relined [] text other) :
    CutsAlike [] Text.EqUpToReturns (cut c text) (cut c other) := by
  by_cases hquote : c = '\x27' ∨ c = '"'
  · have hstring (rest : List Char) : cut c rest = cutString c rest := by
      rcases hquote with rfl | rfl <;> rfl
    rw [hstring, hstring]
    exact cutString_lineEnds hquote hreturn h
  · exact cut_relined Text.EqUpToReturns.refl hc (fun h => absurd h hquote) h

end Piece

/-- The spelling of a token that stands where it cannot stand, without carriage returns. -/
def DecodeError.Cause.withoutReturns : DecodeError.Cause → DecodeError.Cause
  | .unexpected text => .unexpected (String.ofList (Text.dropReturns text.toList))
  | cause => cause

/-- The failure without carriage returns in the spelling of a token; its place stays the same. -/
def DecodeFailure.withoutReturns : DecodeFailure → DecodeFailure
  | .malformed error => .malformed ⟨error.cause.withoutReturns, error.position⟩
  | .fault cause => .fault cause

/-- Leaving carriage returns out of the spellings of tokens, which stay where they are. -/
def Shift.withoutReturns : Shift where
  place := id
  indent := []
  spell text := String.ofList (Text.dropReturns text.toList)
  column_place _ := rfl

/-- Failures change as the spellings of tokens do. -/
theorem Shift.failure_withoutReturns :
    Shift.withoutReturns.failure = DecodeFailure.withoutReturns := by
  funext failure
  cases failure with
  | fault cause => rfl
  | malformed error =>
    obtain ⟨cause, position⟩ := error
    cases cause <;> rfl

/-- Tokens of sources with other line ends are the same without carriage returns. -/
theorem Token.Relined.token_withoutReturns {token other : Token}
    (h : Token.Relined [] Text.EqUpToReturns token other) :
    Shift.withoutReturns.token other = Shift.withoutReturns.token token := by
  obtain ⟨kind, text, position⟩ := token
  obtain ⟨kind', text', position'⟩ := other
  obtain ⟨rfl, htext, rfl⟩ := h
  have hkind : Shift.withoutReturns.kind ((Shift.right []).kind kind) =
      Shift.withoutReturns.kind kind := by cases kind <;> rfl
  rw [Shift.token, Shift.token, hkind]
  exact congrArg (Token.mk _ · _) (congrArg String.ofList htext)

/-- A document without carriage returns has the same value with carriage returns before some of its
line feeds, or the same error up to carriage returns in the spelling of a token. -/
theorem decode_lineEnds {text other : List Char} (hreturn : '\r' ∉ text)
    (h : Relined [] text other) :
    (decode (String.ofList other)).mapError DecodeFailure.withoutReturns =
      (decode (String.ofList text)).mapError DecodeFailure.withoutReturns := by
  have hcut {c : Char} {rest rest' : List Char} (hsuffix : c :: rest <:+ text) (hc : c ≠ '\n')
      (hrest : Relined [] rest rest') :=
    Piece.cut_lineEnds hc (fun hmem => hreturn (hsuffix.subset (List.mem_cons_of_mem c hmem))) hrest
  have hsource := TokenStream.ofSource_relined (fun _ hmem => absurd hmem List.not_mem_nil)
    (Text.EqUpToReturns.refl _) hcut h
  rw [List.nil_append] at hsource
  rw [decode, decode, String.toList_ofList, String.toList_ofList, decodeChars, decodeChars]
  rcases hsource with ⟨e, herror, herror'⟩ | ⟨stream, stream', hstream, hstream', htokens, hfinish⟩
  · rw [herror, herror']
    rfl
  · have hmap : Shift.withoutReturns.tokens stream'.tokens =
        Shift.withoutReturns.tokens stream.tokens := by
      rw [Shift.tokens, Shift.tokens, ← List.forall₂_eq_eq_eq, List.forall₂_map_left_iff,
        List.forall₂_map_right_iff]
      exact htokens.flip.imp fun _ _ h => h.token_withoutReturns
    have hsame : Shift.withoutReturns.stream stream' = Shift.withoutReturns.stream stream := by
      rw [Shift.stream, Shift.stream, hmap, hfinish]
      rfl
    rw [hstream, hstream', ← Shift.failure_withoutReturns]
    dsimp only
    rw [← Shift.ofTokens_stream _ (TokenStream.isLineBreak_head_of_ofSource hstream), ← hsame]
    exact (Shift.ofTokens_stream _ (TokenStream.isLineBreak_head_of_ofSource hstream')).symm

/-- A document without carriage returns has the same value with a carriage return before each of its
line feeds, and where the one has an error, the other has one too. -/
theorem decode_withReturns {text : List Char} (hreturn : '\r' ∉ text) :
    (∀ value, decode (String.ofList (Text.withReturns text)) = .ok value ↔
      decode (String.ofList text) = .ok value) ∧
    ∀ p, (∃ e, decode (String.ofList (Text.withReturns text)) = .error (.malformed e) ∧
        e.position = p) ↔
      ∃ e, decode (String.ofList text) = .error (.malformed e) ∧ e.position = p := by
  have hsame := decode_lineEnds hreturn (Text.relined_withReturns text)
  generalize decode (String.ofList (Text.withReturns text)) = result' at hsame ⊢
  generalize decode (String.ofList text) = result at hsame ⊢
  cases result' with
  | ok value' =>
    cases result with
    | error failure => contradiction
    | ok value =>
      cases hsame
      exact ⟨fun _ => Iff.rfl, fun _ => Iff.rfl⟩
  | error failure' =>
    cases result with
    | ok value => contradiction
    | error failure =>
      refine ⟨fun _ => ⟨nofun, nofun⟩, fun p => ?_⟩
      have hfailure := Except.error.inj hsame
      cases failure with
      | fault cause =>
        cases failure' with
        | malformed error => contradiction
        | fault cause' => exact ⟨nofun, nofun⟩
      | malformed error =>
        cases failure' with
        | fault cause' => contradiction
        | malformed error' =>
          simp only [DecodeFailure.withoutReturns, DecodeFailure.malformed.injEq,
            DecodeError.mk.injEq] at hfailure
          have hplace : error'.position = error.position := hfailure.2
          constructor
          · rintro ⟨_, ⟨⟩, rfl⟩
            exact ⟨error, rfl, hplace.symm⟩
          · rintro ⟨_, ⟨⟩, rfl⟩
            exact ⟨error', rfl, hplace⟩

/-- A string on three lines and a bracket behind it: with carriage returns too, the bracket is found
on the same place, behind the last line of the string. -/
theorem decode_withReturns_string :
    (∃ e, decode (String.ofList (Text.withReturns "a: \x27\x27\x27\n b\n\x27\x27\x27 ]".toList)) =
        .error (.malformed e) ∧ e.position = ⟨3, 5⟩) ∧
      ∃ e, decode (String.ofList "a: \x27\x27\x27\n b\n\x27\x27\x27 ]".toList) =
        .error (.malformed e) ∧ e.position = ⟨3, 5⟩ := by
  have herror : ∃ e, decode (String.ofList "a: \x27\x27\x27\n b\n\x27\x27\x27 ]".toList) =
      .error (.malformed e) ∧ e.position = ⟨3, 5⟩ :=
    ⟨⟨.unexpected "]", ⟨3, 5⟩⟩, Result.of_map_eq_error (f := fun _ => ()) (by decide +kernel), rfl⟩
  exact ⟨((decode_withReturns (by decide +kernel)).2 _).2 herror, herror⟩

end NeonAudit
