import NeonAudit.Proofs.Token.LineFeed

/-!
# Texts in single quotes

A text of one line is put in single quotes by writing each of its single quotes twice. It is one
string token again, with one exception: the doubled quote at the start of a text that begins with a
quote makes three with the quote that opens the string, and three quotes open a string that spans
lines. As such it is not terminated, since its first line does not end with the quotes.
-/

namespace NeonAudit

/-- A character between single quotes: the quote itself is written twice. -/
def Text.doubleQuote (c : Char) : List Char :=
  if c = '\x27' then ['\x27', '\x27'] else [c]

/-- A text between single quotes. -/
def Text.singleQuoted (text : List Char) : List Char :=
  '\x27' :: text.flatMap doubleQuote ++ ['\x27']

namespace Piece

/-- A string in single quotes is closed by the first quote that is not written twice. -/
theorem singleQuoted?_flatMap {text rest : List Char} (h : '\n' ∉ text)
    (hrest : rest.head? ≠ some '\x27') :
    singleQuoted? (text.flatMap Text.doubleQuote ++ '\x27' :: rest) =
      some ⟨text, text.flatMap Text.doubleQuote ++ ['\x27'], rest⟩ := by
  induction text with
  | nil =>
    rw [List.flatMap_nil, List.nil_append, singleQuoted?]
    · rfl
    · intro more hmore
      exact hrest (congrArg List.head? hmore)
  | cons c text ih =>
    rw [List.mem_cons, not_or] at h
    have htext := ih h.2
    rw [List.flatMap_cons, List.append_assoc, Text.doubleQuote]
    by_cases hc : c = '\x27'
    · rw [if_pos hc, hc, List.cons_append, List.cons_append, singleQuoted?, List.nil_append, htext]
      rfl
    · rw [if_neg hc, List.singleton_append, singleQuoted?_cons hc, if_neg (Ne.symm h.1), htext]
      rfl

/-- A text of one line is not followed by a line break before a quote. -/
theorem afterLineBreak?_eq_none {text : List Char} (h : '\n' ∉ text) :
    afterLineBreak? text = none := by
  unfold afterLineBreak?
  split
  · exact absurd List.mem_cons_self h
  · exact absurd (List.mem_cons_of_mem _ List.mem_cons_self) h
  · rfl

/-- Doubling quotes adds no line feed. -/
theorem lineFeed_notMem_flatMap {text : List Char} (h : '\n' ∉ text) :
    '\n' ∉ text.flatMap Text.doubleQuote := by
  intro hmem
  obtain ⟨c, hc, hdouble⟩ := List.mem_flatMap.1 hmem
  rw [Text.doubleQuote] at hdouble
  split at hdouble
  · revert hdouble
    decide
  · exact h (List.mem_singleton.1 hdouble ▸ hc)

/-- A text in single quotes that does not start with a quote is cut as the string of it. -/
theorem cutString_singleQuoted {text : List Char} (h : '\n' ∉ text)
    (hhead : text.head? ≠ some '\x27') :
    cutString '\x27' (text.flatMap Text.doubleQuote ++ ['\x27']) =
      .ok (ofString text (Text.singleQuoted text), []) := by
  have hthree :
      afterThree? '\x27' ('\x27' :: (text.flatMap Text.doubleQuote ++ ['\x27'])) = none := by
    cases text with
    | nil => rfl
    | cons c text =>
      have hc : c ≠ '\x27' := fun hc => hhead (congrArg some hc)
      rw [List.flatMap_cons, Text.doubleQuote, if_neg hc]
      exact afterThree?_eq_none hc _
  rw [cutString, hthree]
  dsimp only
  rw [if_neg (by decide), singleQuoted?_flatMap h (by simp)]
  rfl

/-- A text in single quotes that starts with a quote opens a string that spans lines, and does not
terminate it. -/
theorem cutString_singleQuoted_quote {text : List Char} (h : '\n' ∉ text) :
    cutString '\x27' (('\x27' :: text).flatMap Text.doubleQuote ++ ['\x27']) =
      .error .unterminatedString := by
  have hline : '\n' ∉ text.flatMap Text.doubleQuote ++ ['\x27'] := by
    rw [List.mem_append, not_or]
    exact ⟨lineFeed_notMem_flatMap h, by decide⟩
  have hthree : afterThree? '\x27' ('\x27' ::
      (('\x27' :: text).flatMap Text.doubleQuote ++ ['\x27'])) =
        some (text.flatMap Text.doubleQuote ++ ['\x27']) := by
    rw [List.flatMap_cons]
    rfl
  rw [cutString, hthree]
  dsimp only
  rw [afterLineBreak?_eq_none hline]
  rfl

end Piece

/-- A text of one line in single quotes is one string token with the text as its value, unless the
text starts with a quote: then three quotes open a string that is not terminated. -/
theorem TokenStream.ofSource_singleQuoted {text : List Char} (h : '\n' ∉ text) :
    TokenStream.ofSource (Text.singleQuoted text) =
      if text.head? = some '\x27' then .error ⟨.unterminatedString, .start⟩
      else .ok ⟨[⟨.lineBreak [], "\n", .start⟩,
        ⟨.string (String.ofList text), String.ofList (Text.singleQuoted text), .start⟩],
          Position.start.after (Text.singleQuoted text)⟩ := by
  have hcut : Piece.cut '\x27' (text.flatMap Text.doubleQuote ++ ['\x27']) =
      Piece.cutString '\x27' (text.flatMap Text.doubleQuote ++ ['\x27']) := rfl
  have hindent : (Text.singleQuoted text).takeWhile Piece.isIndentation = [] := rfl
  have hsource : (Text.singleQuoted text).dropWhile Piece.isIndentation =
      '\x27' :: (text.flatMap Text.doubleQuote ++ ['\x27']) := rfl
  rw [TokenStream.ofSource, hindent, hsource, Position.after_nil, Piece.ofSource_cons, hcut]
  by_cases hhead : text.head? = some '\x27'
  · obtain ⟨rest, rfl⟩ : ∃ rest, text = '\x27' :: rest := by
      cases text with
      | nil => contradiction
      | cons c rest => exact ⟨rest, congrArg (· :: rest) (Option.some.inj hhead)⟩
    rw [if_pos hhead,
      Piece.cutString_singleQuoted_quote fun hmem => h (List.mem_cons_of_mem _ hmem)]
    rfl
  · rw [if_neg hhead, Piece.cutString_singleQuoted h hhead]
    dsimp only
    rw [Piece.ofSource]
    rfl

/-- Quotes inside a text, at its end and next to each other are all read back. -/
theorem TokenStream.ofSource_singleQuoted_runs :
    '\n' ∉ "a\x27\x27\r\x27".toList ∧
      TokenStream.ofSource "\x27a\x27\x27\x27\x27\r\x27\x27\x27".toList =
        .ok ⟨[⟨.lineBreak [], "\n", ⟨1, 1⟩⟩, ⟨.string "a\x27\x27\r\x27",
          "\x27a\x27\x27\x27\x27\r\x27\x27\x27", ⟨1, 1⟩⟩], ⟨1, 11⟩⟩ := by
  have hline : '\n' ∉ "a\x27\x27\r\x27".toList := by decide
  refine ⟨hline, ?_⟩
  exact (TokenStream.ofSource_singleQuoted hline).trans (by decide +kernel)

/-- The text of one quote is not read back: four quotes are no string token. -/
theorem TokenStream.ofSource_singleQuoted_quote :
    '\n' ∉ ['\x27'] ∧
      TokenStream.ofSource (Text.singleQuoted ['\x27']) =
        .error ⟨.unterminatedString, ⟨1, 1⟩⟩ := by
  decide +kernel

end NeonAudit
