import NeonAudit.Proofs.Token.Coverage
import NeonAudit.Proofs.Token.LineFeed

/-!
# Lines without tokens

A line of blanks, with a comment or without one, is cut into pieces that have no tokens and the line
break before the next line. The tokens of a source from the start of a line on are the line break
before the line and those behind its indentation, and so are those of a whole source. Of line breaks
that follow each other only the last one stays.
-/

namespace NeonAudit

/-- A line without tokens: blanks, then nothing or a comment, and a line feed. -/
inductive IsVacant : List Char → Prop
  | lineFeed : IsVacant ['\n']
  | comment {text} : '\n' ∉ text → IsVacant ('#' :: text ++ ['\n'])
  | blank {c line} : c ∈ [' ', '\t', '\r'] → IsVacant line → IsVacant (c :: line)

namespace Token

/-- Line breaks are merged alike where they stand elsewhere. -/
theorem mergeLineBreaks_map {f : Token → Token}
    (h : ∀ token, (f token).isLineBreak = token.isLineBreak) (tokens : List Token) :
    mergeLineBreaks (tokens.map f) = (mergeLineBreaks tokens).map f := by
  induction tokens with
  | nil => rfl
  | cons token rest ih =>
    have hhead : (rest.map f).head?.any isLineBreak = rest.head?.any isLineBreak := by
      cases rest with
      | nil => rfl
      | cons next rest => exact h next
    rw [List.map_cons, mergeLineBreaks, mergeLineBreaks, h, hhead, ih]
    split <;> rfl

/-- Merging line breaks keeps all other tokens. -/
theorem mem_mergeLineBreaks {token : Token} (h : token.isLineBreak = false) {tokens : List Token} :
    token ∈ mergeLineBreaks tokens ↔ token ∈ tokens := by
  have hfilter := congrArg (token ∈ ·) (filter_mergeLineBreaks tokens)
  simpa [h] using hfilter

/-- A line break before another one does not matter. -/
theorem mergeLineBreaks_append_cons_cons (front rest : List Token) {lineBreak next : Token}
    (hbreak : lineBreak.isLineBreak = true) (hnext : next.isLineBreak = true) :
    mergeLineBreaks (front ++ lineBreak :: next :: rest) =
      mergeLineBreaks (front ++ next :: rest) := by
  induction front with
  | nil =>
    rw [List.nil_append, mergeLineBreaks, hbreak, List.head?_cons, Option.any_some, hnext]
    rfl
  | cons token front ih =>
    have hhead : (front ++ lineBreak :: next :: rest).head?.any isLineBreak =
        (front ++ next :: rest).head?.any isLineBreak := by
      cases front with
      | nil => exact hbreak.trans hnext.symm
      | cons token front => rfl
    rw [List.cons_append, List.cons_append, mergeLineBreaks, mergeLineBreaks, hhead, ih]

/-- The tokens of a source from the start of a line on: the line break before the line, and those of
the pieces after its indentation. -/
def ofLines (p : Position) (source : List Char) (pieces : List Piece) : List Token :=
  let indent := source.takeWhile Piece.isIndentation
  ⟨.lineBreak indent, "\n", p.after indent⟩ :: ofPieces (p.after indent) pieces

/-- A line feed is followed by the tokens from the next line on. -/
theorem ofPieces_ofLineBreak (p : Position) (source : List Char) (pieces : List Piece) :
    ofPieces p (Piece.ofLineBreak source :: pieces) = ofLines (p.next '\n') source pieces := rfl

end Token

/-- A source that is cut into pieces has their tokens, from the start of its first line on. -/
theorem TokenStream.ofSource_of_cuts {source : List Char} {pieces : List Piece}
    (h : Piece.Cuts (source.dropWhile Piece.isIndentation) pieces []) :
    TokenStream.ofSource source =
      .ok ⟨Token.mergeLineBreaks (Token.ofLines .start source pieces), Position.behind source⟩ := by
  rw [TokenStream.ofSource, h.ofSource_eq_ok, ← Position.start_after source]
  rfl

/-- The first token of a source is a line break. -/
theorem TokenStream.isLineBreak_head_of_ofSource {source : List Char} {stream : TokenStream}
    (h : TokenStream.ofSource source = .ok stream) :
    stream.tokens.head?.any Token.isLineBreak = true := by
  obtain ⟨pieces, -, rfl⟩ := Result.of_map_eq_ok h
  exact Token.isLineBreak_head_mergeLineBreaks _

namespace IsVacant

variable {line : List Char}

/-- A line without tokens has none after its indentation. -/
theorem dropWhile (h : IsVacant line) : IsVacant (line.dropWhile Piece.isIndentation) := by
  induction h with
  | lineFeed => exact .lineFeed
  | comment htext => exact .comment htext
  | blank hc hline ih =>
    rw [List.dropWhile_cons]
    split
    · exact ih
    · exact .blank hc hline

/-- A line without tokens ends in its only line feed. -/
theorem exists_eq (h : IsVacant line) : ∃ text, line = text ++ ['\n'] ∧ '\n' ∉ text := by
  induction h with
  | lineFeed => exact ⟨[], rfl, List.not_mem_nil⟩
  | @comment text htext => exact ⟨'#' :: text, rfl, by simpa using htext⟩
  | @blank c line hc _ ih =>
    obtain ⟨text, rfl, htext⟩ := ih
    refine ⟨c :: text, rfl, ?_⟩
    intro hmem
    rcases List.mem_cons.1 hmem with rfl | hmem
    · exact absurd hc (by decide)
    · exact htext hmem

/-- A line without tokens leads to the next line. -/
theorem after (h : IsVacant line) (p : Position) : p.after line = ⟨p.line + 1, 1⟩ := by
  obtain ⟨text, rfl, htext⟩ := h.exists_eq
  rw [Position.after_append, Position.after_of_notMem htext]
  rfl

/-- A line without tokens is cut into pieces without tokens and the line break before the next
line. -/
theorem exists_cuts (h : IsVacant line) (after : List Char) :
    ∃ gap, (∀ p, Token.ofPieces p gap = []) ∧ Piece.texts gap ++ ['\n'] = line ∧
      Piece.Cuts (line ++ after) (gap ++ [Piece.ofLineBreak after])
        (after.dropWhile Piece.isIndentation) := by
  induction h with
  | lineFeed => exact ⟨[], fun _ => rfl, rfl, Piece.cuts_ofLineBreak after⟩
  | @comment text htext =>
    have hrun : ∀ c ∈ text, decide (c ≠ '\n') = true := by
      intro c hc
      exact decide_eq_true fun heq => htext (heq ▸ hc)
    have hcut : Piece.cut '#' (text ++ '\n' :: after) =
        .ok (⟨.comment, '#' :: text⟩, '\n' :: after) := by
      change Except.ok _ = _
      rw [Text.takeWhile_append_of_head? hrun (by simp),
        Text.dropWhile_append_of_head? hrun (by simp)]
    refine ⟨[⟨.comment, '#' :: text⟩], fun _ => rfl, by simp, ?_⟩
    rw [List.append_assoc]
    exact .cons hcut (Piece.cuts_ofLineBreak after)
  | @blank c line hc _ ih =>
    obtain ⟨gap, hgap, rfl, hcuts⟩ := ih
    refine ⟨⟨.blank, [c]⟩ :: gap, fun p => hgap _, rfl, .cons ?_ hcuts⟩
    simp only [List.mem_cons, List.not_mem_nil, or_false] at hc
    rcases hc with rfl | rfl | rfl <;> rfl

/-- A line without tokens is a line break before the tokens from the next line on. -/
theorem exists_ofLines (h : IsVacant line) {after : List Char} {back : List Piece}
    (hback : Piece.Cuts (after.dropWhile Piece.isIndentation) back []) (p : Position) :
    ∃ pieces lineBreak, Piece.Cuts ((line ++ after).dropWhile Piece.isIndentation) pieces [] ∧
      lineBreak.isLineBreak = true ∧
      Token.ofLines p (line ++ after) pieces =
        lineBreak :: Token.ofLines (p.after line) after back := by
  obtain ⟨gap, hgap, htexts, hcuts⟩ := h.dropWhile.exists_cuts after
  obtain ⟨text, rfl, -⟩ := h.exists_eq
  rw [Text.dropWhile_append_cons rfl] at htexts hcuts
  have hplace : p.after (text ++ ['\n']) =
      ((p.after (text.takeWhile Piece.isIndentation)).after (Piece.texts gap)).next '\n' := by
    rw [List.append_cancel_right htexts, ← Position.after_append, List.takeWhile_append_dropWhile,
      Position.after_append]
    rfl
  refine ⟨gap ++ Piece.ofLineBreak after :: back,
    ⟨.lineBreak (text.takeWhile Piece.isIndentation), "\n",
      p.after (text.takeWhile Piece.isIndentation)⟩, ?_, rfl, ?_⟩
  · rw [List.append_assoc, List.singleton_append, Text.dropWhile_append_cons rfl]
    rw [List.append_assoc, List.singleton_append] at hcuts
    simpa using hcuts.append hback
  · rw [List.append_assoc, List.singleton_append, Token.ofLines, Text.takeWhile_append_cons rfl,
      Token.ofPieces_append, hgap, Token.ofPieces_ofLineBreak, hplace]
    rfl

end IsVacant

end NeonAudit
