import NeonAudit.Proofs.Document.Shift
import NeonAudit.Proofs.Token.Vacant

/-!
# A line between two lines

A line of blanks, with a comment or without one, has no tokens. Between two lines of a source its
line break is merged with that of the line before it, so that the tokens of the source stay the same
and those behind the new line come to stand one line lower. What they are read as does not depend on
where they stand, and so the document has the same value, or the same error one line lower.
-/

namespace NeonAudit

/-- One line lower, for places on the given line or below it. -/
def Position.lowered (n : Nat) (p : Position) : Position :=
  if p.line < n then p else ⟨p.line + 1, p.column⟩

/-- The token one line lower, if it is on the given line or below it. -/
def Token.lowered (n : Nat) (token : Token) : Token :=
  { token with position := token.position.lowered n }

/-- The tokens and the end one line lower, as far as they are on the given line or below it. -/
def TokenStream.lowered (n : Nat) (stream : TokenStream) : TokenStream :=
  ⟨stream.tokens.map (Token.lowered n), stream.finish.lowered n⟩

/-- The failure with its place one line lower, if that is on the given line or below it. -/
def DecodeFailure.lowered (n : Nat) : DecodeFailure → DecodeFailure
  | .malformed error => .malformed ⟨error.cause, error.position.lowered n⟩
  | .fault cause => .fault cause

/-- The end of the text is inside the spelling of the token, neither before it nor behind it. -/
def Token.Straddles (token : Token) (before : List Char) : Prop :=
  ∃ front first second, before = front ++ first ∧ first ≠ [] ∧ second ≠ [] ∧
    token.text.toList = first ++ second ∧ token.position = Position.behind front

/-- A token that is torn is spelled from some place of the text on by all of its rest and more. -/
theorem Token.straddles_iff {token : Token} {before : List Char} :
    token.Straddles before ↔ ∃ k < before.length, before.drop k <+: token.text.toList ∧
      before.drop k ≠ token.text.toList ∧ token.position = Position.behind (before.take k) := by
  constructor
  · rintro ⟨front, first, second, rfl, hfirst, hsecond, htext, hposition⟩
    refine ⟨front.length, ?_, ?_, ?_, ?_⟩
    · simpa [List.length_pos_iff] using hfirst
    · rw [List.drop_left, htext]
      exact List.prefix_append first second
    · rw [List.drop_left, htext]
      simpa using hsecond
    · rw [List.take_left, hposition]
  · rintro ⟨k, hk, ⟨second, htext⟩, hne, hposition⟩
    refine ⟨before.take k, before.drop k, second, (List.take_append_drop k before).symm, ?_, ?_,
      htext.symm, hposition⟩
    · simpa using hk
    · rintro rfl
      exact hne (by rw [← htext, List.append_nil])

instance (token : Token) (before : List Char) : Decidable (token.Straddles before) :=
  decidable_of_iff _ Token.straddles_iff.symm

/-- Moving places one line lower. -/
def Shift.lowering (n : Nat) : Shift where
  place := Position.lowered n
  indent := []
  spell := id
  column_place p := by
    unfold Position.lowered
    split <;> rfl

/-- A lowered document is read as the document, or fails one line lower. -/
theorem ofTokens_lowered {stream : TokenStream}
    (h : stream.tokens.head?.any Token.isLineBreak = true) (n : Nat) :
    Value.ofTokens (stream.lowered n) =
      (Value.ofTokens stream).mapError (DecodeFailure.lowered n) := by
  have htoken : (Shift.lowering n).token = Token.lowered n := by
    funext token
    obtain ⟨kind, text, position⟩ := token
    cases kind <;> rfl
  have hfailure : (Shift.lowering n).failure = DecodeFailure.lowered n := by
    funext failure
    cases failure with
    | fault cause => rfl
    | malformed error =>
      obtain ⟨cause, position⟩ := error
      cases cause <;> rfl
  have hread := (Shift.lowering n).ofTokens_stream h
  rw [Shift.stream, Shift.tokens, htoken, hfailure] at hread
  exact hread

section Position

variable {n : Nat} {p : Position}

/-- Text does not lead to a line above. -/
theorem Position.line_le_after (p : Position) (text : List Char) : p.line ≤ (p.after text).line := by
  induction text generalizing p with
  | nil => exact Nat.le_refl _
  | cons c text ih =>
    have hnext : p.line ≤ (p.next c).line := by
      unfold next
      split
      · exact Nat.le_succ _
      · exact Nat.le_refl _
    exact hnext.trans (ih (p.next c))

/-- Text leads from a lowered place to a lowered place. -/
theorem Position.lowered_after (h : n ≤ p.line) (text : List Char) :
    (p.lowered n).after text = (p.after text).lowered n := by
  induction text generalizing p with
  | nil => rfl
  | cons c text ih =>
    have hline : n ≤ (p.next c).line := h.trans (p.line_le_after [c])
    have hnext : (p.lowered n).next c = (p.next c).lowered n := by
      rw [lowered, lowered, if_neg (Nat.not_lt.2 h), if_neg (Nat.not_lt.2 hline)]
      unfold next
      split <;> rfl
    rw [after_cons, after_cons, hnext, ih hline]

end Position

namespace Token

/-- A token above the line stays where it is. -/
theorem lowered_of_line_lt {n : Nat} {token : Token} (h : token.position.line < n) :
    token.lowered n = token := by
  rw [lowered, Position.lowered, if_pos h]

/-- Pieces from a lowered place on have lowered tokens. -/
theorem ofPieces_lowered {n : Nat} {p : Position} (h : n ≤ p.line) (pieces : List Piece) :
    ofPieces (p.lowered n) pieces = (ofPieces p pieces).map (lowered n) := by
  induction pieces generalizing p with
  | nil => rfl
  | cons piece pieces ih =>
    have hrest := ih (h.trans (p.line_le_after piece.text))
    rw [ofPieces, ofPieces, Position.lowered_after h, hrest]
    cases piece.kind <;> rfl

/-- The tokens of pieces are not on a line below the end of the pieces. -/
theorem line_le_of_mem_ofPieces {p : Position} {pieces : List Piece} {token : Token}
    (h : token ∈ ofPieces p pieces) :
    token.position.line ≤ (p.after (Piece.texts pieces)).line := by
  induction pieces generalizing p with
  | nil => contradiction
  | cons piece pieces ih =>
    rw [Piece.texts_cons, Position.after_append]
    have hhere := (p.after piece.text).line_le_after (Piece.texts pieces)
    rw [ofPieces] at h
    split at h
    · exact ih h
    · exact ih h
    · rcases List.mem_cons.1 h with rfl | h
      · exact hhere
      · exact ih h
    · rcases List.mem_cons.1 h with rfl | h
      · exact (p.line_le_after piece.text).trans hhere
      · exact ih h

end Token

/-- A source that is empty or ends at the end of a line, and at whose end no token is torn, is
followed by the tokens from the next line on, whatever these are: the tokens before them are on lines
above. -/
theorem exists_front_of_ofSource {before after : List Char} {stream : TokenStream}
    (hbefore : before = [] ∨ before.getLast? = some '\n')
    (hstream : TokenStream.ofSource (before ++ after) = .ok stream)
    (hwhole : ∀ token ∈ stream.tokens, ¬token.Straddles before) :
    ∃ front back, Piece.Cuts (after.dropWhile Piece.isIndentation) back [] ∧
      (∀ token ∈ front, token.position.line < (Position.behind before).line) ∧
      ∀ {other pieces}, Piece.Cuts (other.dropWhile Piece.isIndentation) pieces [] →
        TokenStream.ofSource (before ++ other) =
          .ok ⟨Token.mergeLineBreaks (front ++ Token.ofLines (Position.behind before) other pieces),
            Position.behind (before ++ other)⟩ := by
  obtain ⟨pieces, hpieces, -⟩ := Result.of_map_eq_ok hstream
  have hcuts := Piece.cuts_of_ofSource hpieces
  obtain rfl := Except.ok.inj ((TokenStream.ofSource_of_cuts hcuts).symm.trans hstream)
  rcases hbefore with rfl | hlast
  · refine ⟨[], pieces, hcuts, by simp, fun hother => ?_⟩
    exact TokenStream.ofSource_of_cuts hother
  · obtain ⟨text, rfl⟩ := List.getLast?_eq_some_iff.1 hlast
    rw [List.append_assoc, List.singleton_append] at hcuts hwhole
    rw [Text.dropWhile_append_cons rfl] at hcuts
    rcases hcuts.lineFeed with ⟨front, back, rfl, hfront, hback⟩ |
      ⟨front, piece, back, first, rfl, ⟨value, hkind⟩, ⟨more, hmore, htext⟩, hfirst⟩
    · have hplace : (Position.start.after (text.takeWhile Piece.isIndentation)).after
          (Piece.texts front) = Position.behind text := by
        have htexts := List.append_cancel_right (hfront []).texts_append
        rw [htexts, ← Position.after_append, List.takeWhile_append_dropWhile,
          Position.start_after]
      refine ⟨Token.ofLines .start text front, back, hback, ?_, fun {other pieces} hother => ?_⟩
      · intro token hmem
        have hnext : (Position.behind text).line < (Position.behind (text ++ ['\n'])).line := by
          simp [Position.behind]
        refine Nat.lt_of_le_of_lt ?_ hnext
        rw [← hplace]
        rcases List.mem_cons.1 hmem with rfl | hmem
        · exact Position.line_le_after _ _
        · exact Token.line_le_of_mem_ofPieces hmem
      · have hcut : Piece.Cuts ((text ++ '\n' :: other).dropWhile Piece.isIndentation)
            (front ++ Piece.ofLineBreak other :: pieces) [] := by
          rw [Text.dropWhile_append_cons rfl]
          exact (hfront other).append ((Piece.cuts_ofLineBreak other).append hother)
        have htokens : Token.ofLines .start (text ++ '\n' :: other)
            (front ++ Piece.ofLineBreak other :: pieces) =
              Token.ofLines .start text front ++
                Token.ofLines (Position.behind (text ++ ['\n'])) other pieces := by
          rw [← Position.behind_after, ← hplace, Token.ofLines, Token.ofLines,
            Text.takeWhile_append_cons rfl, Token.ofPieces_append, Token.ofPieces_ofLineBreak]
          rfl
        rw [List.append_assoc, List.singleton_append, TokenStream.ofSource_of_cuts hcut, htokens]
    · -- The string would be torn.
      refine absurd ?_ (hwhole ⟨.string value, String.ofList piece.text,
        (Position.start.after (text.takeWhile Piece.isIndentation)).after (Piece.texts front)⟩ ?_)
      · refine ⟨text.takeWhile Piece.isIndentation ++ Piece.texts front, first ++ ['\n'], more, ?_,
          by simp, hmore, ?_, ?_⟩
        · rw [← List.append_assoc, List.append_assoc (text.takeWhile Piece.isIndentation), hfirst,
            List.takeWhile_append_dropWhile]
        · simp [htext]
        · rw [← Position.after_append, Position.start_after]
      · rw [Token.mem_mergeLineBreaks rfl, Token.ofLines, Text.takeWhile_append_cons rfl,
          Token.ofPieces_append, Token.ofPieces, hkind]
        exact List.mem_cons_of_mem _ (List.mem_append_right _ List.mem_cons_self)

/-- A line without tokens between two lines of a source changes no token but moves those behind it
one line lower, and the document has the same value, or the same error, which is one line lower
behind the new line. The line may be the first or the last one, but not inside a string. -/
theorem decode_append_vacant {before line after : List Char} {stream : TokenStream}
    (hbefore : before = [] ∨ before.getLast? = some '\n') (hline : IsVacant line)
    (hstream : TokenStream.ofSource (before ++ after) = .ok stream)
    (hwhole : ∀ token ∈ stream.tokens, ¬token.Straddles before) :
    TokenStream.ofSource (before ++ (line ++ after)) =
        .ok (stream.lowered (Position.behind before).line) ∧
      decode (String.ofList (before ++ (line ++ after))) =
        (decode (String.ofList (before ++ after))).mapError
          (DecodeFailure.lowered (Position.behind before).line) := by
  obtain ⟨front, back, hback, hfront, hsource⟩ :=
    exists_front_of_ofSource hbefore hstream hwhole
  obtain rfl := Except.ok.inj ((hsource hback).symm.trans hstream)
  have hcolumn : (Position.behind before).column = 1 := by
    rcases hbefore with rfl | hlast
    · rfl
    · obtain ⟨text, rfl⟩ := List.getLast?_eq_some_iff.1 hlast
      rw [Position.behind, Text.lastLine_concat, if_pos rfl]
      rfl
  generalize hplace : Position.behind before = place at *
  have hnext : place.after line = place.lowered place.line := by
    rw [hline.after, Position.lowered, if_neg (Nat.lt_irrefl _), hcolumn]
  obtain ⟨pieces, lineBreak, hpieces, hbreak, htokens⟩ := hline.exists_ofLines hback place
  have habove : front.map (Token.lowered place.line) = front :=
    (List.map_congr_left fun token hmem => Token.lowered_of_line_lt (hfront token hmem)).trans
      (List.map_id front)
  have hbelow : (Token.ofLines place after back).map (Token.lowered place.line) =
      Token.ofLines (place.lowered place.line) after back := by
    rw [Token.ofLines, Token.ofLines, Position.lowered_after (Nat.le_refl _),
      Token.ofPieces_lowered (place.line_le_after _)]
    rfl
  have hmerged : Token.mergeLineBreaks (front ++ Token.ofLines place (line ++ after) pieces) =
      (Token.mergeLineBreaks (front ++ Token.ofLines place after back)).map
        (Token.lowered place.line) := by
    rw [← Token.mergeLineBreaks_map (f := Token.lowered place.line) fun _ => rfl,
      List.map_append, habove, hbelow, htokens, hnext]
    exact Token.mergeLineBreaks_append_cons_cons _ _ hbreak rfl
  have hfinish : Position.behind (before ++ (line ++ after)) =
      (Position.behind (before ++ after)).lowered place.line := by
    rw [← Position.behind_after, ← Position.behind_after before after, hplace,
      Position.after_append, hnext, Position.lowered_after (Nat.le_refl _)]
  have hlowered := hsource hpieces
  rw [hmerged, hfinish] at hlowered
  refine ⟨hlowered, ?_⟩
  rw [decode, decode, String.toList_ofList, String.toList_ofList, decodeChars, decodeChars,
    hlowered, hstream]
  exact ofTokens_lowered (TokenStream.isLineBreak_head_of_ofSource hstream) place.line

/-- A comment between a string on three lines and a key without a value: the line after it has the
same error, one line lower. -/
theorem decode_append_vacant_comment :
    decode (String.ofList ("a: \x27\x27\x27\nb\n\x27\x27\x27\n".toList ++
        (" \t# why: \"\r\n".toList ++ "  \nc: ]".toList))) =
      .error (.malformed ⟨.unexpected "]", ⟨6, 4⟩⟩) := by
  have hline : IsVacant " \t# why: \"\r\n".toList :=
    .blank (by decide) (.blank (by decide) (@IsVacant.comment " why: \"\r".toList (by decide)))
  have hstream : TokenStream.ofSource
      ("a: \x27\x27\x27\nb\n\x27\x27\x27\n".toList ++ "  \nc: ]".toList) =
        .ok ⟨[⟨.lineBreak [], "\n", ⟨1, 1⟩⟩, ⟨.literal "a", "a", ⟨1, 1⟩⟩, ⟨.mark .colon, ":", ⟨1, 2⟩⟩,
          ⟨.string "b", "\x27\x27\x27\nb\n\x27\x27\x27", ⟨1, 4⟩⟩, ⟨.lineBreak [], "\n", ⟨5, 1⟩⟩,
          ⟨.literal "c", "c", ⟨5, 1⟩⟩, ⟨.mark .colon, ":", ⟨5, 2⟩⟩,
          ⟨.mark .closeSquare, "]", ⟨5, 4⟩⟩], ⟨5, 5⟩⟩ := by
    decide +kernel
  have hdecode := (decode_append_vacant (.inr (by decide +kernel)) hline hstream
    (by decide +kernel)).2
  have herror : decode (String.ofList
      ("a: \x27\x27\x27\nb\n\x27\x27\x27\n".toList ++ "  \nc: ]".toList)) =
        .error (.malformed ⟨.unexpected "]", ⟨5, 4⟩⟩) :=
    Result.of_map_eq_error (f := fun _ => ()) (by decide +kernel)
  have hplace : (Position.behind "a: \x27\x27\x27\nb\n\x27\x27\x27\n".toList).line = 4 := by
    decide +kernel
  rw [hdecode, herror, hplace]
  rfl

end NeonAudit
