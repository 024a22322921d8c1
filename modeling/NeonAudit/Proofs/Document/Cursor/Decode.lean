import NeonAudit.Proofs.Document.Cursor.Block
import NeonAudit.Proofs.Document.PassesLineEnds
import NeonAudit.Proofs.Message
import NeonAudit.Proofs.Token.Cutting

/-!
# Decoding with a cursor

A source has as many tokens as characters at most, but for the line break before its first line. So
a number of turns that is read off its length suffices to decode it with a cursor, which ends as
decoding does. No other halt is reached however many turns are allowed.
-/

namespace NeonAudit

/-- A source has at least as many characters as pieces. -/
theorem Piece.Cuts.length_le {source rest : List Char} {pieces : List Piece}
    (h : Cuts source pieces rest) : pieces.length ≤ source.length := by
  induction h with
  | nil => exact Nat.zero_le _
  | cons hcut _ ih =>
    have hlength := Piece.length_of_cut hcut
    simp only [List.length_cons] at hlength ⊢
    omega

/-- There are at most as many tokens as pieces. -/
theorem Token.length_ofPieces_le (p : Position) (pieces : List Piece) :
    (ofPieces p pieces).length ≤ pieces.length := by
  induction pieces generalizing p with
  | nil => exact Nat.le_refl _
  | cons piece pieces ih =>
    have hrest := ih (p.after piece.text)
    rw [ofPieces, List.length_cons]
    split
    · exact Nat.le_succ_of_le hrest
    · exact Nat.le_succ_of_le hrest
    · exact Nat.succ_le_succ hrest
    · exact Nat.succ_le_succ hrest

/-- A source has at most one token more than characters. -/
theorem TokenStream.length_tokens_le {source : List Char} {stream : TokenStream}
    (h : ofSource source = .ok stream) : stream.tokens.length ≤ source.length + 1 := by
  obtain ⟨pieces, hpieces, rfl⟩ := Result.of_map_eq_ok h
  have hmerged := (Token.mergeLineBreaks_sublist (Token.ofPieces .start
    (⟨.lineBreak (source.takeWhile Piece.isIndentation),
      source.takeWhile Piece.isIndentation⟩ :: pieces))).length_le
  have htokens := Token.length_ofPieces_le .start (⟨.lineBreak (source.takeWhile Piece.isIndentation),
    source.takeWhile Piece.isIndentation⟩ :: pieces)
  have hcuts := (Piece.cuts_of_ofSource hpieces).length_le
  have hdrop := (List.dropWhile_suffix (l := source) Piece.isIndentation).length_le
  rw [List.length_cons] at htokens
  dsimp only
  omega

namespace Cursor

variable {α σ : Type} {stream : TokenStream}

/-- The indentation of the first line is that of the line break at the front. -/
theorem splitOpening_cons (token : Token) (rest : List Token) :
    splitOpening (token :: rest) = ((frontIndent? (token :: rest)).getD [], rest) := by
  rw [splitOpening, frontIndent?, List.head?_cons, Option.bind_some]
  cases token.kind <;> rfl

/-- A document is read to its end. -/
theorem reads_document (fuel : Nat) (tokens : List Token) :
    Reads stream (fuel ≤ tokens.length) 0 tokens (document fuel)
      ((Value.ofTokens ⟨tokens, stream.finish⟩).map fun value => (value, [])) := by
  refine .observe observes_lineIndent? ?_
  cases tokens with
  | nil => exact .advance_nil (.observe observes_atEnd (.pure rfl))
  | cons token rest =>
    refine .advance (.observe observes_atEnd ?_)
    rw [Value.ofTokens, splitOpening_cons]
    dsimp only
    split
    · rename_i hempty
      exact .pure (by rw [List.isEmpty_iff.1 hempty]; rfl)
    · have hblock : Reads stream (fuel ≤ rest.length + 1) 0 rest
          (block fuel ((frontIndent? (token :: rest)).getD []) false)
          ((NeonAudit.block stream.finish maxDepth ((frontIndent? (token :: rest)).getD [])
            false).run rest) :=
        reads_block fuel 0 rest.length _ false rest (Nat.le_refl _)
      refine .bind hblock (fun failure hfailure => ?_) fun value after hvalue => ?_
      · rw [hfailure]
        rfl
      · have hafter := ((NeonAudit.block _ _ _ _).consumes hvalue).1.length_le
        rw [hvalue]
        have hturns : fuel ≤ after.length → fuel ≤ (token :: rest).length :=
          fun h => Nat.le_succ_of_le (Nat.le_trans h hafter)
        refine .bind (.skip hturns) (fun _ h => h) ?_
        intro _ left hleft
        obtain ⟨-, rfl⟩ := hleft
        refine .observe observes_atEnd ?_
        dsimp only
        split
        · rename_i hempty
          exact .pure (by rw [List.isEmpty_iff.1 hempty]; rfl)
        · exact .unexpectedToken rfl

/-- Decoding with a cursor ends as decoding does, unless there are fewer turns than tokens. -/
theorem decode_eq_or (fuel : Nat) (source : String) :
    decode fuel source = (NeonAudit.decode source).mapError .failed ∨
      decode fuel source = .error .unfinished ∧ fuel ≤ source.length + 1 := by
  unfold decode NeonAudit.decode decodeChars
  cases hstream : TokenStream.ofSource source.toList with
  | error error => exact .inl rfl
  | ok stream =>
    have hstart : IsBefore stream 0 stream.tokens ⟨0, 0⟩ := ⟨Nat.zero_le _, rfl, rfl⟩
    have hfits := reads_document fuel stream.tokens ⟨0, 0⟩ hstart
    dsimp only
    generalize (document fuel).runFrom stream ⟨0, 0⟩ = outcome at hfits ⊢
    cases hfits with
    | ok _ hresult =>
      obtain ⟨value, hvalue, hpair⟩ := Result.of_map_eq_ok hresult
      cases hpair
      exact .inl (by rw [hvalue]; rfl)
    | failed hfailure =>
      exact .inl (by rw [Result.of_map_eq_error hfailure]; rfl)
    | unfinished hshort =>
      have hlength := TokenStream.length_tokens_le hstream
      rw [String.length_toList] at hlength
      exact .inr ⟨rfl, by omega⟩

/-- As many turns as a source has characters, and two more, suffice to decode it. -/
theorem decode_eq {fuel : Nat} {source : String} (h : source.length + 1 < fuel) :
    decode fuel source = (NeonAudit.decode source).mapError .failed := by
  rcases decode_eq_or fuel source with heq | ⟨-, hfuel⟩
  · exact heq
  · exact absurd h (Nat.not_lt.2 hfuel)

/-- However many turns are allowed, the cursor never looks past the end, and finds a key or the name
of a link wherever it takes one; and no document is refused because a line ends early. -/
theorem decode_reaches_no_dead_branch (source : String) :
    (∀ fuel halt, decode fuel source = .error halt → halt ∉ [.outside, .noKey, .noLink]) ∧
      (∀ fuel, source.length + 1 < fuel →
        decode fuel source = (NeonAudit.decode source).mapError .failed) ∧
      ∀ error, NeonAudit.decode source = .error (.malformed error) →
        error.cause.text ≠ "Unexpected end of line" := by
  refine ⟨fun fuel halt h => ?_, fun fuel => decode_eq, fun error h htext => ?_⟩
  · rcases decode_eq_or fuel source with heq | ⟨heq, -⟩
    · rw [h] at heq
      cases hdecode : NeonAudit.decode source with
      | ok value =>
        rw [hdecode] at heq
        contradiction
      | error failure =>
        rw [hdecode] at heq
        cases heq
        simp
    · rw [h] at heq
      cases heq
      simp
  · exact not_isLineEnd_of_decode h (DecodeError.Cause.text_injective htext)

/-- A bracket that is not closed is found at the end, with turns enough for four characters. -/
theorem decode_reaches_no_dead_branch_unclosed :
    "a: [".length + 1 < 6 ∧
      decode 6 "a: [" = .error (.failed (.at ⟨1, 5⟩ .unexpectedEnd)) ∧
      Halt.failed (.at ⟨1, 5⟩ .unexpectedEnd) ∉ [.outside, .noKey, .noLink] ∧
      DecodeError.Cause.unexpectedEnd.text ≠ "Unexpected end of line" := by
  obtain ⟨hhalts, hends, htext⟩ := decode_reaches_no_dead_branch "a: ["
  have hfailed : NeonAudit.decode "a: [" = .error (.at ⟨1, 5⟩ .unexpectedEnd) :=
    Result.of_map_eq_error (f := fun _ => ()) (by decide +kernel)
  have hturns : "a: [".length + 1 < 6 := by decide
  have hdecode := hends 6 hturns
  rw [hfailed] at hdecode
  exact ⟨hturns, hdecode, hhalts 6 _ hdecode, htext _ hfailed⟩

end Cursor

end NeonAudit
