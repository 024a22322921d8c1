import Mathlib.Data.List.Infix
import NeonAudit.Proofs.Document.Layout
import NeonAudit.Proofs.Document.Relined
import NeonAudit.Proofs.Text.Split

/-!
# Documents further to the right

An indentation may be put before every line of a document, empty lines included. Only a string that
spans lines would have it in its text; all other tokens stay as they are, further to the right. As
indentations are compared with each other, and the column of a token only with the indentation of
its line, the document has the same value, or the same error further to the right.
-/

namespace NeonAudit

open Text (Relined)

/-- The text with the indentation before each of its lines. -/
def Text.inset (indent text : List Char) : List Char :=
  ['\n'].intercalate ((split '\n' text).map (indent ++ ·))

/-- The failure further to the right. -/
def DecodeFailure.right (n : Nat) : DecodeFailure → DecodeFailure
  | .malformed error => .malformed ⟨error.cause, error.position.right n⟩
  | .fault cause => .fault cause

/-- Lines with an indentation before each of them are the indentation and the relined text of the
lines. -/
theorem Text.exists_relined_intercalate (indent : List Char) {lines : List (List Char)}
    (hne : lines ≠ []) (hlines : ∀ line ∈ lines, '\n' ∉ line) :
    ∃ other, ['\n'].intercalate (lines.map (indent ++ ·)) = indent ++ other ∧
      Relined indent (['\n'].intercalate lines) other := by
  induction lines with
  | nil => contradiction
  | cons line lines ih =>
    have hline : Relined indent line line := .of_notMem (hlines line List.mem_cons_self)
    cases lines with
    | nil =>
      rw [List.map_cons, List.map_nil, List.intercalate_singleton, List.intercalate_singleton]
      exact ⟨line, rfl, hline⟩
    | cons next lines =>
      obtain ⟨other, hother, hrelined⟩ := ih (List.cons_ne_nil _ _) fun line hmem =>
        hlines line (List.mem_cons_of_mem _ hmem)
      refine ⟨line ++ '\n' :: (indent ++ other), ?_, ?_⟩
      · rw [List.map_cons, List.map_cons, List.intercalate_cons_cons, ← List.map_cons, hother,
          List.append_assoc, List.append_assoc, List.singleton_append]
      · rw [List.intercalate_cons_cons, List.append_assoc, List.singleton_append]
        exact hline.append (.lineFeed hrelined)

/-- An inset text is the indentation and the relined text. -/
theorem Text.exists_relined_inset (indent text : List Char) :
    ∃ other, inset indent text = indent ++ other ∧ Relined indent text other := by
  have hrelined := exists_relined_intercalate indent (split_ne_nil '\n' text)
    fun _ => notMem_of_mem_split
  rwa [intercalate_split] at hrelined

/-- Failures move to the right as the tokens do. -/
theorem Shift.failure_right (indent : List Char) :
    (Shift.right indent).failure = DecodeFailure.right indent.length := by
  funext failure
  cases failure with
  | fault cause => rfl
  | malformed error =>
    obtain ⟨cause, position⟩ := error
    cases cause <;> rfl

/-- Tokens of a relined source that are spelled as before are the tokens further to the right. -/
theorem Token.Relined.token_right {indent : List Char} {token other : Token}
    (h : Token.Relined indent Eq token other) : (Shift.right indent).token token = other := by
  obtain ⟨kind, text, position⟩ := other
  obtain ⟨rfl, htext, rfl⟩ := h
  obtain rfl := String.toList_injective htext
  rfl

/-- No three quotes stand at a place of a text in which there are none. -/
theorem Piece.afterThree?_of_suffix {quote : Char} {text rest : List Char}
    (h : ¬[quote, quote, quote] <:+: text) (hrest : rest <:+ text) :
    afterThree? quote rest = none := by
  refine Option.eq_none_iff_forall_ne_some.2 fun remaining hthree => h ?_
  obtain rfl := append_of_afterThree? hthree
  exact (List.prefix_append [quote, quote, quote] remaining).isInfix.trans hrest.isInfix

/-- With an indentation before each of its lines, a document without three quotes in a row has the
same value, or the same error, which is further to the right by the indentation. -/
theorem decode_inset {indent text : List Char} (hindent : IsIndent indent)
    (hsingle : ¬['\x27', '\x27', '\x27'] <:+: text) (hdouble : ¬['"', '"', '"'] <:+: text) :
    decode (String.ofList (Text.inset indent text)) =
      (decode (String.ofList text)).mapError (DecodeFailure.right indent.length) := by
  obtain ⟨other, hother, hrelined⟩ := Text.exists_relined_inset indent text
  have hcut {c : Char} {rest rest' : List Char} (hsuffix : c :: rest <:+ text) (hc : c ≠ '\n')
      (hrest : Relined indent rest rest') :
      Piece.CutsAlike indent Eq (Piece.cut c rest) (Piece.cut c rest') := by
    refine Piece.cut_relined (fun _ => rfl) hc (fun hquote => ?_) hrest
    rcases hquote with rfl | rfl
    · exact Piece.afterThree?_of_suffix hsingle hsuffix
    · exact Piece.afterThree?_of_suffix hdouble hsuffix
  have hsource := TokenStream.ofSource_relined hindent rfl hcut hrelined
  rw [decode, decode, String.toList_ofList, String.toList_ofList, decodeChars, decodeChars, hother]
  rcases hsource with ⟨e, herror, herror'⟩ | ⟨stream, stream', hstream, hstream', htokens, hfinish⟩
  · rw [herror, herror']
    rfl
  · have hmap : (Shift.right indent).tokens stream.tokens = stream'.tokens := by
      rw [Shift.tokens, ← List.forall₂_eq_eq_eq, List.forall₂_map_left_iff]
      exact htokens.imp fun _ _ h => h.token_right
    have hshift : (Shift.right indent).stream stream = stream' := by
      rw [Shift.stream, hmap]
      exact congrArg (TokenStream.mk _) hfinish.symm
    rw [hstream, hstream', ← hshift, ← Shift.failure_right]
    exact Shift.ofTokens_stream _ (TokenStream.isLineBreak_head_of_ofSource hstream)

/-- A block on the line of a dash with a bracket where a value should be: behind a tab and a space
the error is two columns to the right. -/
theorem decode_inset_bullet :
    decode (String.ofList "- a: 1\n\n  b: ]".toList) =
        .error (.malformed ⟨.unexpected "]", ⟨3, 6⟩⟩) ∧
      decode (String.ofList (Text.inset ['\t', ' '] "- a: 1\n\n  b: ]".toList)) =
        .error (.malformed ⟨.unexpected "]", ⟨3, 8⟩⟩) := by
  have hindent : IsIndent ['\t', ' '] := by simp [IsIndent, Piece.isIndentation]
  have herror : decode (String.ofList "- a: 1\n\n  b: ]".toList) =
      .error (.malformed ⟨.unexpected "]", ⟨3, 6⟩⟩) :=
    Result.of_map_eq_error (f := fun _ => ()) (by decide +kernel)
  refine ⟨herror, ?_⟩
  rw [decode_inset hindent (by decide +kernel) (by decide +kernel), herror]
  rfl

end NeonAudit
