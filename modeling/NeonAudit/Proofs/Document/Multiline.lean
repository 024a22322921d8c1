import NeonAudit.Proofs.Document.Layout
import NeonAudit.Proofs.Token.LineFeed

/-!
# Strings of several lines

Three quotes at the end of a line open a string, and three quotes behind an indentation close it. The
indentation of its first line is removed from all lines that start with it, and the line ends are
not told apart. So lines that are written at one indentation are given back as they are, if none of
them can be taken for the end of the string, and the first one has no indentation of its own.
-/

namespace NeonAudit

namespace Text

/-- A line can stand in a string of several lines in the given quotes: it is one line, its end is
told from its line end, and it does not close the string. -/
structure FitsString (quote : Char) (line : List Char) : Prop where
  /-- There is no line feed in the line. -/
  lineFeed_notMem : '\n' ∉ line
  /-- There is no carriage return at its end. -/
  getLast?_ne : line.getLast? ≠ some '\r'
  /-- There are no three quotes behind an indentation. -/
  ne_append : ∀ blanks rest, IsIndent blanks → line ≠ blanks ++ quote :: quote :: quote :: rest

/-- Lines of one indentation between three quotes each. -/
def multiline (quote : Char) (indent : List Char) (lines : List Line) (closing : Bool) :
    List Char :=
  quote :: quote :: quote ::
    (brokenText indent lines ++ (lineBreakText closing indent ++ [quote, quote, quote]))

end Text

open Text (FitsString)

variable {quote : Char} {indent line : List Char}

namespace Piece

/-- A line closes a string exactly if three quotes stand behind an indentation. -/
theorem afterThree?_eq_none_iff (hquote : isIndentation quote = false) :
    afterThree? quote (line.dropWhile isIndentation) = none ↔
      ∀ blanks rest, IsIndent blanks → line ≠ blanks ++ quote :: quote :: quote :: rest := by
  constructor
  · intro h blanks rest hblanks hline
    rw [hline, Text.dropWhile_append_of_head? hblanks (by simp [hquote]), afterThree?,
      if_pos ⟨rfl, rfl, rfl⟩] at h
    contradiction
  · intro h
    cases hthree : afterThree? quote (line.dropWhile isIndentation) with
    | none => rfl
    | some rest =>
      have hline := List.takeWhile_append_dropWhile (p := isIndentation) (l := line)
      rw [← append_of_afterThree? hthree] at hline
      exact absurd hline.symm (h _ rest fun _ => List.mem_takeWhile_imp)

/-- Whether a line fits into a string is told from what stands behind its indentation. -/
theorem fitsString_iff (hquote : isIndentation quote = false) :
    FitsString quote line ↔ '\n' ∉ line ∧ line.getLast? ≠ some '\r' ∧
      afterThree? quote (line.dropWhile isIndentation) = none := by
  rw [afterThree?_eq_none_iff hquote]
  constructor
  · intro h
    exact ⟨h.lineFeed_notMem, h.getLast?_ne, h.ne_append⟩
  · intro h
    exact ⟨h.1, h.2.1, h.2.2⟩

/-- A line that does not close a string does not close it at an indentation, nor before a line
end. -/
theorem afterThree?_lineEnd (hline : quote ≠ '\n') (hreturn : quote ≠ '\r')
    (hindent : IsIndent indent) (h : afterThree? quote (line.dropWhile isIndentation) = none)
    (afterReturn : Bool) (after : List Char) :
    afterThree? quote ((indent ++ (line ++ if afterReturn then ['\r'] else []) ++
      '\n' :: after).dropWhile isIndentation) = none := by
  rw [List.append_assoc, List.dropWhile_append_of_pos hindent, Text.dropWhile_append_cons rfl,
    afterThree?_append_cons hline]
  cases afterReturn with
  | false => rw [if_neg Bool.false_ne_true, List.append_nil, h, Option.map_none]
  | true =>
    rw [if_pos rfl, Text.dropWhile_append_cons rfl, afterThree?_append_cons hreturn, h,
      Option.map_none, Option.map_none]

/-- The carriage return of a line end is not part of the line before it. -/
theorem withoutReturn_append (h : line.getLast? ≠ some '\r') (afterReturn : Bool) :
    Text.withoutReturn (line ++ if afterReturn then ['\r'] else []) = line := by
  cases afterReturn with
  | false =>
    rw [if_neg Bool.false_ne_true, List.append_nil]
    exact if_neg h
  | true => rw [if_pos rfl, Text.withoutReturn, List.getLast?_concat, if_pos rfl, List.dropLast_concat]

/-- An indentation does not end in a carriage return. -/
theorem getLast?_indent_append (hindent : IsIndent indent) (h : line.getLast? ≠ some '\r') :
    (indent ++ line).getLast? ≠ some '\r' := by
  rw [List.getLast?_append]
  cases hlast : line.getLast? with
  | some c =>
    rw [hlast] at h
    exact h
  | none =>
    intro hreturn
    exact absurd (hindent '\r' (List.mem_of_getLast? hreturn)) (by decide)

/-- A line at the indentation is the first of the lines of a string, and the others are found where
the indentation of the next one starts. -/
theorem exists_quotedLines?_cons (hline : quote ≠ '\n') (hreturn : quote ≠ '\r')
    (hquote : isIndentation quote = false) (hindent : IsIndent indent) (h : FitsString quote line)
    (afterReturn : Bool) (after : List Char) :
    ∃ spelled, Text.withoutReturn spelled = indent ++ line ∧
      quotedLines? quote (indent ++ (line ++ (lineBreakText afterReturn indent ++ after))) =
        (quotedLines? quote (indent ++ after)).map fun more =>
          ⟨spelled :: more.lines, spelled ++ '\n' :: more.text, more.rest⟩ := by
  obtain ⟨hfeed, hlast, hthree⟩ := (fitsString_iff hquote).1 h
  refine ⟨indent ++ (line ++ if afterReturn then ['\r'] else []), ?_, ?_⟩
  · rw [← List.append_assoc]
    exact withoutReturn_append (getLast?_indent_append hindent hlast) afterReturn
  · have hsource : indent ++ (line ++ (lineBreakText afterReturn indent ++ after)) =
        indent ++ (line ++ if afterReturn then ['\r'] else []) ++ '\n' :: (indent ++ after) := by
      simp [lineBreakText]
    have hnone : '\n' ∉ indent ++ (line ++ if afterReturn then ['\r'] else []) := by
      have hblank : '\n' ∉ indent := fun hmem => absurd (hindent '\n' hmem) (by decide)
      have hend : '\n' ∉ if afterReturn then ['\r'] else [] := by
        cases afterReturn <;> decide
      simp only [List.mem_append, not_or]
      exact ⟨hblank, hfeed, hend⟩
    rw [hsource]
    exact quotedLines?_line hnone
      (afterThree?_lineEnd hline hreturn hindent hthree afterReturn (indent ++ after))

/-- The lines of a string at one indentation are found in order, up to the quotes that close it. -/
theorem exists_quotedLines?_blockText (hline : quote ≠ '\n') (hreturn : quote ≠ '\r')
    (hquote : isIndentation quote = false) (hindent : IsIndent indent) {first : Line}
    {lines : List Line} (h : ∀ line ∈ first :: lines, FitsString quote line.text)
    (closing : Bool) :
    ∃ found, quotedLines? quote (indent ++ (blockText indent (first :: lines) ++
        (lineBreakText closing indent ++ [quote, quote, quote]))) = some found ∧
      found.rest = [] ∧
        found.lines.map Text.withoutReturn =
          (first :: lines).map fun line => indent ++ line.text := by
  induction lines generalizing first with
  | nil =>
    have hthree :
        afterThree? quote ((indent ++ [quote, quote, quote]).dropWhile isIndentation) = some [] := by
      rw [Text.dropWhile_append_of_head? hindent (by simp [hquote])]
      exact if_pos ⟨rfl, rfl, rfl⟩
    obtain ⟨spelled, hspelled, hlines⟩ := exists_quotedLines?_cons hline hreturn hquote hindent
      (h first List.mem_cons_self) closing [quote, quote, quote]
    rw [blockText, brokenText, List.append_nil, hlines, quotedLines?_close hthree]
    exact ⟨_, rfl, rfl, congrArg (fun line => [line]) hspelled⟩
  | cons next lines ih =>
    obtain ⟨found, hfound, hrest, htexts⟩ := ih fun line hmem => h line (List.mem_cons_of_mem _ hmem)
    obtain ⟨spelled, hspelled, hlines⟩ := exists_quotedLines?_cons hline hreturn hquote hindent
      (h first List.mem_cons_self) next.afterReturn
      (blockText indent (next :: lines) ++ (lineBreakText closing indent ++ [quote, quote, quote]))
    have hsource : blockText indent (first :: next :: lines) ++
        (lineBreakText closing indent ++ [quote, quote, quote]) =
          first.text ++ (lineBreakText next.afterReturn indent ++ (blockText indent (next :: lines) ++
            (lineBreakText closing indent ++ [quote, quote, quote]))) := by
      simp [blockText, brokenText]
    rw [hsource, hlines, hfound]
    refine ⟨_, rfl, hrest, ?_⟩
    rw [List.map_cons, hspelled, htexts]
    rfl

/-- Lines at one indentation have it removed if it is that of the first one. -/
theorem joinLines_of_indent (hindent : IsIndent indent) {found : List (List Char)} {first : List Char}
    {lines : List (List Char)} (hfirst : ∀ c ∈ first.head?, isIndentation c = false)
    (h : found.map Text.withoutReturn = (first :: lines).map (indent ++ ·)) :
    joinLines found = ['\n'].intercalate (first :: lines) := by
  have hprefix : ((indent ++ first).takeWhile isIndentation) = indent :=
    Text.takeWhile_append_of_head? hindent hfirst
  have hwithout (line : List Char) : withoutIndent indent (indent ++ line) = line := by
    rw [withoutIndent, if_pos (by simp), List.drop_left]
  have hlines : ((first :: lines).map (indent ++ ·)).map (withoutIndent indent) = first :: lines := by
    rw [List.map_map]
    exact (List.map_congr_left fun line _ => hwithout line).trans (List.map_id _)
  have hindented : (((first :: lines).map (indent ++ ·)).headD []).takeWhile isIndentation = indent :=
    hprefix
  simp only [joinLines, h, hindented, hlines]

/-- A line end is taken off the front. -/
theorem afterLineBreak?_append (afterReturn : Bool) (after : List Char) :
    afterLineBreak? ((if afterReturn then ['\r'] else []) ++ '\n' :: after) =
      some ((if afterReturn then ['\r'] else []) ++ ['\n'], after) := by
  cases afterReturn <;> rfl

/-- Lines at one indentation between three quotes each are cut as a string of the lines, in which
escapes are resolved if the quotes are double. -/
theorem cutString_multiline (hline : quote ≠ '\n') (hreturn : quote ≠ '\r')
    (hquote : isIndentation quote = false) (hindent : IsIndent indent) {first : Line}
    {lines : List Line} (h : ∀ line ∈ first :: lines, FitsString quote line.text)
    (hfirst : ∀ c ∈ first.text.head?, isIndentation c = false) (closing : Bool) :
    cutString quote (quote :: quote :: (brokenText indent (first :: lines) ++
        (lineBreakText closing indent ++ [quote, quote, quote]))) =
      (resolve quote (['\n'].intercalate ((first :: lines).map Line.text))).map fun value =>
        (ofString value (Text.multiline quote indent (first :: lines) closing), []) := by
  obtain ⟨found, hfound, hrest, htexts⟩ :=
    exists_quotedLines?_blockText hline hreturn hquote hindent h closing
  have hjoined : joinLines found.lines = ['\n'].intercalate ((first :: lines).map Line.text) := by
    rw [List.map_cons]
    apply joinLines_of_indent hindent hfirst
    rw [htexts, ← List.map_cons, List.map_map]
    rfl
  have hsource : brokenText indent (first :: lines) ++
      (lineBreakText closing indent ++ [quote, quote, quote]) =
        (if first.afterReturn then ['\r'] else []) ++ '\n' :: (indent ++
          (blockText indent (first :: lines) ++
            (lineBreakText closing indent ++ [quote, quote, quote]))) := by
    simp [brokenText, blockText, lineBreakText]
  have htext := append_of_quotedLines? hfound
  rw [hrest, List.append_nil] at htext
  have hthree (source : List Char) :
      afterThree? quote (quote :: quote :: quote :: source) = some source := if_pos ⟨rfl, rfl, rfl⟩
  rw [cutString, hthree, Text.multiline, hsource]
  dsimp only
  rw [afterLineBreak?_append, Option.bind_some, hfound, Option.map_some]
  dsimp only
  rw [hjoined, hrest, htext]
  simp

end Piece

/-- Lines between three single quotes each are one string token with the lines as its value, whatever
their indentation and their line ends. -/
theorem TokenStream.ofSource_multiline {first : Line} {lines : List Line} (closing : Bool)
    (hindent : IsIndent indent) (h : ∀ line ∈ first :: lines, FitsString '\x27' line.text)
    (hfirst : ∀ c ∈ first.text.head?, Piece.isIndentation c = false) :
    TokenStream.ofSource (Text.multiline '\x27' indent (first :: lines) closing) =
      .ok ⟨[⟨.lineBreak [], "\n", .start⟩,
        ⟨.string (String.ofList (['\n'].intercalate ((first :: lines).map Line.text))),
          String.ofList (Text.multiline '\x27' indent (first :: lines) closing), .start⟩],
        Position.start.after (Text.multiline '\x27' indent (first :: lines) closing)⟩ := by
  have hcut : Piece.cut '\x27' ('\x27' :: '\x27' :: (brokenText indent (first :: lines) ++
      (lineBreakText closing indent ++ ['\x27', '\x27', '\x27']))) =
        .ok (Piece.ofString (['\n'].intercalate ((first :: lines).map Line.text))
          (Text.multiline '\x27' indent (first :: lines) closing), []) :=
    Piece.cutString_multiline (by decide) (by decide) (by decide) hindent h hfirst closing
  have htake : (Text.multiline '\x27' indent (first :: lines) closing).takeWhile
      Piece.isIndentation = [] := rfl
  have hdrop : (Text.multiline '\x27' indent (first :: lines) closing).dropWhile
      Piece.isIndentation = '\x27' :: '\x27' :: '\x27' :: (brokenText indent (first :: lines) ++
        (lineBreakText closing indent ++ ['\x27', '\x27', '\x27'])) := rfl
  rw [TokenStream.ofSource, htake, hdrop, Position.after_nil, Piece.ofSource_cons, hcut]
  dsimp only
  rw [Piece.ofSource]
  rfl

/-- An empty line, one that is further to the right, and quotes that do not open their line are all
given back. -/
theorem TokenStream.ofSource_multiline_blank :
    IsIndent ['\t', ' '] ∧
      (∀ line ∈ [⟨true, "one".toList⟩, ⟨false, []⟩, (⟨true, "  a\rb \x27\x27\x27".toList⟩ : Line)],
        FitsString '\x27' line.text) ∧
      TokenStream.ofSource
          "\x27\x27\x27\r\n\t one\n\t \r\n\t   a\rb \x27\x27\x27\n\t \x27\x27\x27".toList =
        .ok ⟨[⟨.lineBreak [], "\n", ⟨1, 1⟩⟩, ⟨.string "one\n\n  a\rb \x27\x27\x27",
          "\x27\x27\x27\r\n\t one\n\t \r\n\t   a\rb \x27\x27\x27\n\t \x27\x27\x27", ⟨1, 1⟩⟩],
          ⟨5, 6⟩⟩ := by
  have hindent : IsIndent ['\t', ' '] := by
    intro c hc
    simp only [List.mem_cons, List.not_mem_nil, or_false] at hc
    rcases hc with rfl | rfl <;> decide
  have hfits : ∀ line ∈ [⟨true, "one".toList⟩, ⟨false, []⟩,
      (⟨true, "  a\rb \x27\x27\x27".toList⟩ : Line)], FitsString '\x27' line.text := by
    intro line hline
    apply (Piece.fitsString_iff (by decide)).2
    simp only [List.mem_cons, List.not_mem_nil, or_false] at hline
    rcases hline with rfl | rfl | rfl <;> decide
  have hfirst : ∀ c ∈ "one".toList.head?, Piece.isIndentation c = false := by
    rintro c ⟨⟩
    rfl
  refine ⟨hindent, hfits, ?_⟩
  exact (TokenStream.ofSource_multiline false hindent hfits hfirst).trans (by decide +kernel)

end NeonAudit
