import NeonAudit.Proofs.Token.Spelled
import NeonAudit.Proofs.Token.Vacant

/-!
# Texts spread over lines

Between two tokens inside brackets there may be padding: blanks, and any number of line ends with
blank lines and comments before them. Padding is cut into pieces whose only tokens are line breaks,
and it ends a literal before it unless a comment follows the literal directly. `LaidOut text ends P`
says that the text is cut before whatever `ends` admits, and that `P` holds of its tokens when the
line breaks among them have been merged; two such texts may stand with padding between them.
-/

namespace NeonAudit

/-- Text that may stand between two tokens: the rest of a line and further lines without tokens,
and then blanks. -/
inductive IsPadding : List Char → Prop
  | blanks {text} : (∀ c ∈ text, c ∈ [' ', '\t', '\r']) → IsPadding text
  | line {line padding} : IsVacant line → IsPadding padding → IsPadding (line ++ padding)

namespace Piece

/-- Blanks end what stands before them if a character that ends a literal is behind them, or a
comment that does not follow directly. -/
theorem ends_of_blanks {text : List Char} (htext : ∀ b ∈ text, b ∈ [' ', '\t', '\r']) {c : Char}
    (hc : endsLiteral c = true ∨ c = '#' ∧ text ≠ []) (rest : List Char) :
    Ends (text ++ c :: rest) := by
  have hstops : continuesLiteral ((text ++ c :: rest).dropWhile isIndentation) = false := by
    have hlast : isIndentation c = false ∧ continuesLiteral (c :: rest) = false := by
      rcases hc with hc | ⟨rfl, -⟩
      · rw [continuesLiteral, hc]
        simp only [endsLiteral, List.mem_cons, List.not_mem_nil, or_false,
          decide_eq_true_eq] at hc
        rcases hc with rfl | rfl | rfl | rfl | rfl | rfl | rfl | rfl <;> exact ⟨rfl, rfl⟩
      · exact ⟨rfl, rfl⟩
    clear hc
    induction text with
    | nil => rw [List.nil_append, List.dropWhile_cons_of_neg (by simp [hlast.1]), hlast.2]
    | cons b text ih =>
      have hrest := ih fun d hd => htext d (List.mem_cons_of_mem b hd)
      have hb := htext b List.mem_cons_self
      simp only [List.mem_cons, List.not_mem_nil, or_false] at hb
      rcases hb with rfl | rfl | rfl
      · exact hrest
      · exact hrest
      · rfl
  -- A literal goes on over spaces and tabs if what is behind them continues it; a carriage return
  -- ends it at once.
  cases text with
  | nil => exact ends_of_endsLiteral (hc.resolve_right fun h => h.2 rfl) rest
  | cons b text =>
    have hb := htext b List.mem_cons_self
    simp only [List.mem_cons, List.not_mem_nil, or_false] at hb
    have hgoes (hblank : isIndentation b = true) (hcolon : b ≠ ':') :
        goesOn b (text ++ c :: rest) = false := by
      rw [List.cons_append, List.dropWhile_cons_of_pos hblank] at hstops
      rw [goesOn, if_neg hcolon, if_pos hblank, hstops]
    rcases hb with rfl | rfl | rfl
    · exact ⟨by rw [List.cons_append, splitLiteral_cons, hgoes rfl (by decide)]; rfl, by simp⟩
    · exact ⟨by rw [List.cons_append, splitLiteral_cons, hgoes rfl (by decide)]; rfl, by simp⟩
    · exact ends_of_endsLiteral rfl _

/-- Blanks are cut into pieces without tokens. -/
theorem exists_cuts_blanks {text : List Char} (h : ∀ c ∈ text, c ∈ [' ', '\t', '\r'])
    (rest : List Char) :
    ∃ pieces, Cuts (text ++ rest) pieces rest ∧ ∀ p, Token.ofPieces p pieces = [] := by
  induction text with
  | nil => exact ⟨[], .nil, fun _ => rfl⟩
  | cons c text ih =>
    obtain ⟨pieces, hcuts, htokens⟩ := ih fun d hd => h d (List.mem_cons_of_mem c hd)
    have hc := h c List.mem_cons_self
    simp only [List.mem_cons, List.not_mem_nil, or_false] at hc
    have hcut : cut c (text ++ rest) = .ok (⟨.blank, [c]⟩, text ++ rest) := by
      rcases hc with rfl | rfl | rfl <;> rfl
    exact ⟨⟨.blank, [c]⟩ :: pieces, .cons hcut hcuts, fun p => htokens _⟩

end Piece

namespace IsVacant

variable {line : List Char}

/-- A line without tokens starts with blanks, and then its comment or its end. -/
theorem exists_blanks (h : IsVacant line) :
    ∃ blanks c rest, line = blanks ++ c :: rest ∧ (∀ b ∈ blanks, b ∈ [' ', '\t', '\r']) ∧
      (c = '\n' ∨ c = '#') := by
  induction h with
  | lineFeed => exact ⟨[], '\n', [], rfl, by simp, .inl rfl⟩
  | @comment text _ => exact ⟨[], '#', text ++ ['\n'], rfl, by simp, .inr rfl⟩
  | @blank b line hb _ ih =>
    obtain ⟨blanks, c, rest, rfl, hblanks, hc⟩ := ih
    exact ⟨b :: blanks, c, rest, rfl, List.forall_mem_cons.2 ⟨hb, hblanks⟩, hc⟩

/-- A line without tokens ends what stands before it, unless it starts with a comment. -/
theorem ends (h : IsVacant line) (hfront : line.head? ≠ some '#') (rest : List Char) :
    Piece.Ends (line ++ rest) := by
  obtain ⟨blanks, c, more, rfl, hblanks, hc⟩ := h.exists_blanks
  rw [List.append_assoc]
  refine Piece.ends_of_blanks hblanks ?_ _
  rcases hc with rfl | rfl
  · exact .inl rfl
  · refine .inr ⟨rfl, ?_⟩
    rintro rfl
    exact hfront rfl

/-- The indentation of a line without tokens ends in the line. -/
theorem dropWhile_append (h : IsVacant line) (after : List Char) :
    (line ++ after).dropWhile Piece.isIndentation =
      line.dropWhile Piece.isIndentation ++ after := by
  obtain ⟨text, rfl, -⟩ := h.exists_eq
  rw [List.append_assoc, List.singleton_append, Text.dropWhile_append_cons rfl,
    Text.dropWhile_append_cons rfl, List.append_assoc, List.singleton_append]

end IsVacant

namespace Token

/-- Line breaks before a token that is none are merged on their own. -/
theorem mergeLineBreaks_append {first rest : List Token}
    (h : rest.head?.any isLineBreak = false) :
    mergeLineBreaks (first ++ rest) = mergeLineBreaks first ++ mergeLineBreaks rest := by
  induction first with
  | nil => rfl
  | cons token first ih =>
    have hhead : (first ++ rest).head?.any isLineBreak = first.head?.any isLineBreak := by
      cases first with
      | nil => exact h
      | cons next first => rfl
    rw [List.cons_append, mergeLineBreaks, mergeLineBreaks, hhead, ih]
    split <;> rfl

/-- The tokens start with one that is no line break, and merging them does not depend on what
follows. -/
structure Solid (tokens : List Token) : Prop where
  /-- The first token is no line break. -/
  front : ∃ token rest, tokens = token :: rest ∧ token.isLineBreak = false
  /-- Line breaks are merged up to the end of the tokens. -/
  merge : ∀ more, mergeLineBreaks (tokens ++ more) = mergeLineBreaks tokens ++ mergeLineBreaks more

/-- A token that is no line break is solid. -/
theorem solid_singleton {token : Token} (h : token.isLineBreak = false) : Solid [token] where
  front := ⟨token, [], rfl, h⟩
  merge more := by
    rw [List.singleton_append, mergeLineBreaks_cons h, mergeLineBreaks_cons h]
    rfl

/-- Solid tokens start with no line break. -/
theorem Solid.head {tokens : List Token} (h : Solid tokens) :
    tokens.head?.any isLineBreak = false := by
  obtain ⟨token, rest, rfl, htoken⟩ := h.front
  exact htoken

/-- Merging goes on behind solid tokens and stops before them. -/
theorem Solid.merge_append {first second : List Token} (h₁ : Solid first) (h₂ : Solid second)
    (breaks : List Token) : mergeLineBreaks (first ++ (breaks ++ second)) =
      mergeLineBreaks first ++ (mergeLineBreaks breaks ++ mergeLineBreaks second) := by
  rw [h₁.merge, mergeLineBreaks_append h₂.head]

/-- Solid tokens may follow each other after any others. -/
theorem Solid.append {first second : List Token} (h₁ : Solid first) (h₂ : Solid second)
    (breaks : List Token) : Solid (first ++ (breaks ++ second)) where
  front := by
    obtain ⟨token, rest, rfl, htoken⟩ := h₁.front
    exact ⟨token, _, rfl, htoken⟩
  merge more := by
    have hhead : (second ++ more).head?.any isLineBreak = false := by
      obtain ⟨token, rest, rfl, htoken⟩ := h₂.front
      exact htoken
    rw [h₁.merge_append h₂, List.append_assoc, List.append_assoc, h₁.merge,
      mergeLineBreaks_append hhead, h₂.merge]
    simp only [List.append_assoc]

/-- Of line breaks some one stays. -/
theorem Breaks.mergeLineBreaks_eq_nil_iff {tokens : List Token} (h : Breaks tokens) :
    Token.mergeLineBreaks tokens = [] ↔ tokens = [] := by
  constructor
  · intro hnil
    have hhead := isLineBreak_head_mergeLineBreaks tokens
    cases tokens with
    | nil => rfl
    | cons token rest =>
      rw [hnil] at hhead
      exact absurd (h token List.mem_cons_self) (by simpa using hhead.symm)
  · rintro rfl
    rfl

end Token

namespace IsPadding

variable {padding : List Char}

/-- Padding that does not start with a comment ends what stands before it if it spans lines or a
character that ends a literal is behind it. -/
theorem ends (h : IsPadding padding) (hfront : padding.head? ≠ some '#') {rest : List Char}
    (hrest : '\n' ∈ padding ∨ ∃ c ∈ rest.head?, Piece.endsLiteral c = true) :
    Piece.Ends (padding ++ rest) := by
  cases h with
  | blanks htext =>
    rcases hrest with hmem | ⟨c, hc, hends⟩
    · exact absurd (htext '\n' hmem) (by decide)
    · obtain ⟨more, rfl⟩ := List.head?_eq_some_iff.1 hc
      exact Piece.ends_of_blanks htext (.inl hends) more
  | line hline _ =>
    rw [List.append_assoc]
    refine hline.ends ?_ _
    obtain ⟨text, rfl, -⟩ := hline.exists_eq
    cases text with
    | nil => simp
    | cons d text => exact hfront

/-- A line without tokens is cut into pieces that have a line break for it before the line breaks of
what is behind it. -/
theorem exists_cuts_line {line after rest : List Char} (hline : IsVacant line)
    (hafter : ∃ pieces, Piece.Cuts (after.dropWhile Piece.isIndentation) pieces rest ∧
      ∀ p, Token.Breaks (Token.ofPieces p pieces)) :
    ∃ pieces, Piece.Cuts (line ++ after) pieces rest ∧
      ∀ p, Token.Breaks (Token.ofPieces p pieces) ∧ Token.ofPieces p pieces ≠ [] := by
  obtain ⟨gap, hgap, -, hcuts⟩ := hline.exists_cuts after
  obtain ⟨pieces, hpieces, hbreaks⟩ := hafter
  refine ⟨_, hcuts.append hpieces, fun p => ?_⟩
  rw [List.append_assoc, List.singleton_append, Token.ofPieces_append, hgap, List.nil_append]
  exact ⟨List.forall_mem_cons.2 ⟨rfl, hbreaks _⟩, List.cons_ne_nil _ _⟩

/-- Padding behind an indentation is cut into pieces of which all tokens are line breaks. -/
theorem exists_cuts_dropWhile (h : IsPadding padding) {c : Char}
    (hc : Piece.isIndentation c = false) (rest : List Char) :
    ∃ pieces, Piece.Cuts ((padding ++ c :: rest).dropWhile Piece.isIndentation) pieces (c :: rest) ∧
      ∀ p, Token.Breaks (Token.ofPieces p pieces) := by
  induction h with
  | @blanks text htext =>
    have hdrop (d : Char) (hd : d ∈ text.dropWhile Piece.isIndentation) :
        d ∈ [' ', '\t', '\r'] := htext d ((List.dropWhile_suffix _).subset hd)
    obtain ⟨pieces, hcuts, htokens⟩ := Piece.exists_cuts_blanks hdrop (c :: rest)
    rw [Text.dropWhile_append_cons hc]
    refine ⟨pieces, hcuts, fun p => ?_⟩
    rw [htokens]
    exact List.forall_mem_nil _
  | @line line padding hline _ ih =>
    obtain ⟨pieces, hcuts, hbreaks⟩ := exists_cuts_line hline.dropWhile ih
    rw [List.append_assoc, hline.dropWhile_append]
    exact ⟨pieces, hcuts, fun p => (hbreaks p).1⟩

/-- Padding before what is no indentation is cut into pieces of which all tokens are line breaks;
there are none exactly if the padding is on one line. -/
theorem exists_cuts (h : IsPadding padding) {c : Char} (hc : Piece.isIndentation c = false)
    (rest : List Char) :
    ∃ pieces, Piece.Cuts (padding ++ c :: rest) pieces (c :: rest) ∧
      ∀ p, Token.Breaks (Token.ofPieces p pieces) ∧
        (Token.ofPieces p pieces = [] ↔ '\n' ∉ padding) := by
  cases h with
  | blanks htext =>
    obtain ⟨pieces, hcuts, htokens⟩ := Piece.exists_cuts_blanks htext (c :: rest)
    refine ⟨pieces, hcuts, fun p => ?_⟩
    rw [htokens]
    exact ⟨List.forall_mem_nil _, fun _ hmem => absurd (htext '\n' hmem) (by decide), fun _ => rfl⟩
  | line hline hpadding =>
    obtain ⟨pieces, hcuts, hbreaks⟩ :=
      exists_cuts_line hline (hpadding.exists_cuts_dropWhile hc rest)
    obtain ⟨text, rfl, -⟩ := hline.exists_eq
    rw [List.append_assoc]
    exact ⟨pieces, hcuts, fun p => ⟨(hbreaks p).1, fun hnil => absurd hnil (hbreaks p).2,
      fun hline => absurd (by simp) hline⟩⟩

end IsPadding

/-- The text is cut before whatever the condition admits, and the property holds of its tokens, with
the line breaks among them merged, wherever the text stands. -/
structure LaidOut (text : List Char) (ends : List Char → Prop) (P : List Token → Prop) : Prop where
  /-- The text does not start with an indentation. -/
  front : ∃ c rest, text = c :: rest ∧ Piece.isIndentation c = false
  /-- The text is cut into pieces that have such tokens. -/
  exists_cuts : ∀ {rest}, ends rest → ∃ pieces, Piece.Cuts (text ++ rest) pieces rest ∧
    ∀ p, Token.Solid (Token.ofPieces p pieces) ∧
      P (Token.mergeLineBreaks (Token.ofPieces p pieces))

namespace LaidOut

variable {text first second : List Char} {ends ends' : List Char → Prop} {P Q : List Token → Prop}

/-- A text may be required to end as before more, and its tokens to have fewer properties. -/
theorem mono (h : LaidOut text ends P) (hends : ∀ {rest}, ends' rest → ends rest)
    (himp : ∀ {tokens}, P tokens → Q tokens) : LaidOut text ends' Q where
  front := h.front
  exists_cuts hrest := by
    obtain ⟨pieces, hcuts, htokens⟩ := h.exists_cuts (hends hrest)
    exact ⟨pieces, hcuts, fun p => ⟨(htokens p).1, himp (htokens p).2⟩⟩

/-- A text whose tokens need no merging is laid out. -/
theorem of_spelled (h : Spelled text fun _ tokens => P tokens) : LaidOut text Piece.Ends P := by
  obtain ⟨pieces, hpieces, hP⟩ := h
  refine ⟨hpieces.front, fun hrest => ⟨pieces, hpieces.cuts hrest, fun p => ?_⟩⟩
  have hmerged := hpieces.merged p
  have hmerge : Token.mergeLineBreaks (Token.ofPieces p pieces) = Token.ofPieces p pieces := by
    simpa [Token.mergeLineBreaks] using hmerged []
  rw [hmerge]
  refine ⟨⟨?_, fun more => ?_⟩, hP p⟩
  · obtain ⟨token, tokens, heq, htoken, -⟩ := hpieces.starts p
    exact ⟨token, tokens, heq, htoken⟩
  · rw [hmerged, hmerge]

/-- A mark is laid out before what makes it one. -/
theorem mark (mark : Mark)
    (h : ∀ {rest}, ends rest → Piece.Cuts (mark.char :: rest) [Piece.ofMark mark] rest) :
    LaidOut [mark.char] ends fun tokens => ∃ token, tokens = [token] ∧ token.kind = .mark mark where
  front := ⟨mark.char, [], rfl, by cases mark <;> rfl⟩
  exists_cuts hrest := by
    refine ⟨[Piece.ofMark mark], h hrest, fun p => ?_⟩
    have hsolid : Token.Solid (Token.ofPieces p [Piece.ofMark mark]) := Token.solid_singleton rfl
    exact ⟨hsolid, _, rfl, rfl⟩

/-- Two texts may stand with padding between them if it ends the first one before the second. -/
theorem join (h₁ : LaidOut first ends P) {padding : List Char} (hpadding : IsPadding padding)
    (h₂ : LaidOut second ends' Q)
    (hends : ∀ {rest}, ends' rest → ends (padding ++ (second ++ rest))) :
    LaidOut (first ++ (padding ++ second)) ends' fun tokens => ∃ a breaks b,
      tokens = a ++ (breaks ++ b) ∧ Token.Breaks breaks ∧ (breaks = [] ↔ '\n' ∉ padding) ∧
        P a ∧ Q b where
  front := by
    obtain ⟨c, rest, rfl, hc⟩ := h₁.front
    exact ⟨c, _, rfl, hc⟩
  exists_cuts {rest} hrest := by
    obtain ⟨c, more, rfl, hc⟩ := h₂.front
    obtain ⟨back, hback, hsecond⟩ := h₂.exists_cuts hrest
    obtain ⟨middle, hmiddle, hbreaks⟩ := hpadding.exists_cuts hc (more ++ rest)
    obtain ⟨front, hfront, hfirst⟩ := h₁.exists_cuts (hends hrest)
    refine ⟨front ++ (middle ++ back), ?_, fun p => ?_⟩
    · rw [List.append_assoc, List.append_assoc]
      exact hfront.append (hmiddle.append hback)
    · obtain ⟨hsolid₁, hP⟩ := hfirst p
      obtain ⟨hsolid₂, hQ⟩ := hsecond ((p.after (Piece.texts front)).after (Piece.texts middle))
      obtain ⟨hbreak, hnil⟩ := hbreaks (p.after (Piece.texts front))
      rw [Token.ofPieces_append, Token.ofPieces_append, hsolid₁.merge_append hsolid₂]
      exact ⟨hsolid₁.append hsolid₂ _, _, _, _, rfl, hbreak.mergeLineBreaks,
        hbreak.mergeLineBreaks_eq_nil_iff.trans hnil, hP, hQ⟩

end LaidOut

end NeonAudit
