import Mathlib.Data.List.TakeWhile
import NeonAudit.Proofs.Text.Span
import NeonAudit.Proofs.Token.Lexeme

/-!
# Pieces before a line feed

A line feed ends whatever piece stands before it, except for a string that spans lines. So the
pieces of a source up to a line feed do not depend on what is behind it, unless a string goes on
there; and behind the line feed the source is cut as if it started with the next line.
-/

namespace NeonAudit.Piece

/-- The piece goes on behind a line feed after the text. -/
def Spans (piece : Piece) (text : List Char) : Prop :=
  ∃ more, more ≠ [] ∧ piece.text = text ++ '\n' :: more

/-- A literal goes on before a line feed whatever is behind it. -/
theorem goesOn_lineFeed (c : Char) (text after other : List Char) :
    goesOn c (text ++ '\n' :: after) = goesOn c (text ++ '\n' :: other) := by
  have hhead : (text ++ '\n' :: after).head? = (text ++ '\n' :: other).head? := by
    cases text <;> rfl
  have hcontinues : continuesLiteral (text.dropWhile isIndentation ++ '\n' :: after) =
      continuesLiteral (text.dropWhile isIndentation ++ '\n' :: other) := by
    cases text.dropWhile isIndentation <;> rfl
  rw [goesOn, goesOn, hhead, Text.dropWhile_append_cons rfl, Text.dropWhile_append_cons rfl,
    hcontinues]

/-- A literal ends before a line feed. -/
theorem exists_splitLiteral_lineFeed (text : List Char) :
    ∃ front rest, ∀ after, splitLiteral (text ++ '\n' :: after) = (front, rest ++ '\n' :: after) := by
  induction text with
  | nil => exact ⟨[], [], fun _ => rfl⟩
  | cons c text ih =>
    obtain ⟨front, rest, hsplit⟩ := ih
    have hgoes (after : List Char) := goesOn_lineFeed c text after []
    cases hfront : goesOn c (text ++ ['\n']) with
    | false =>
      refine ⟨[], c :: text, fun after => ?_⟩
      rw [List.cons_append, splitLiteral_cons, hgoes, hfront, if_neg Bool.false_ne_true]
    | true =>
      refine ⟨c :: front, rest, fun after => ?_⟩
      rw [List.cons_append, splitLiteral_cons, hgoes, hfront, if_pos rfl, hsplit]

/-- A character that is no quote is part of a string in single quotes unless it ends the line. -/
theorem singleQuoted?_cons {c : Char} (h : c ≠ '\x27') (rest : List Char) :
    singleQuoted? (c :: rest) =
      if c = '\n' then none else (singleQuoted? rest).map (.extend [c] [c]) := by
  rw [singleQuoted?]
  · exact fun _ hquote => absurd hquote h
  · exact h

/-- A string in single quotes ends before a line feed. -/
theorem exists_singleQuoted?_lineFeed {text after : List Char} {body : Body}
    (h : singleQuoted? (text ++ '\n' :: after) = some body) :
    ∃ rest, ∀ other, singleQuoted? (text ++ '\n' :: other) =
      some ⟨body.value, body.text, rest ++ '\n' :: other⟩ := by
  fun_induction singleQuoted? text generalizing body with
  | case1 =>
    rw [List.nil_append, singleQuoted?_cons (by decide), if_pos rfl] at h
    contradiction
  | case2 text ih =>
    rw [List.cons_append, List.cons_append, singleQuoted?] at h
    obtain ⟨found, hfound, rfl⟩ := Option.map_eq_some_iff.1 h
    obtain ⟨rest, hrest⟩ := ih hfound
    refine ⟨rest, fun other => ?_⟩
    rw [List.cons_append, List.cons_append, singleQuoted?, hrest]
    rfl
  | case3 text htext =>
    have hcloses (other : List Char) : singleQuoted? ('\x27' :: (text ++ '\n' :: other)) =
        some ⟨[], ['\x27'], text ++ '\n' :: other⟩ := by
      rw [singleQuoted?]
      intro rest hrest
      cases text with
      | nil => cases hrest
      | cons c text => exact htext text (congrArg (· :: text) (List.cons.inj hrest).1)
    rw [List.cons_append, hcloses] at h
    cases h
    exact ⟨text, hcloses⟩
  | case4 text =>
    rw [List.cons_append, singleQuoted?_cons (by decide), if_pos rfl] at h
    contradiction
  | case5 c text _ hquote hline ih =>
    rw [List.cons_append, singleQuoted?_cons hquote, if_neg hline] at h
    obtain ⟨found, hfound, rfl⟩ := Option.map_eq_some_iff.1 h
    obtain ⟨rest, hrest⟩ := ih hfound
    refine ⟨rest, fun other => ?_⟩
    rw [List.cons_append, singleQuoted?_cons hquote, if_neg hline, hrest]
    rfl

/-- A string in double quotes ends before a line feed. -/
theorem exists_doubleQuoted?_lineFeed {text after : List Char} {body : Body}
    (h : doubleQuoted? (text ++ '\n' :: after) = some body) :
    ∃ rest, ∀ other, doubleQuoted? (text ++ '\n' :: other) =
      some ⟨body.value, body.text, rest ++ '\n' :: other⟩ := by
  fun_induction doubleQuoted? text generalizing body with
  | case1 =>
    rw [List.nil_append, doubleQuoted?_cons (by decide) (by decide), if_pos rfl] at h
    contradiction
  | case2 text =>
    rw [List.cons_append, doubleQuoted?] at h
    cases h
    exact ⟨text, fun other => by rw [List.cons_append, doubleQuoted?]⟩
  | case3 text =>
    rw [List.cons_append, List.cons_append, doubleQuoted?, if_pos rfl] at h
    contradiction
  | case4 c text hline ih =>
    rw [List.cons_append, List.cons_append, doubleQuoted?_escape hline] at h
    obtain ⟨found, hfound, rfl⟩ := Option.map_eq_some_iff.1 h
    obtain ⟨rest, hrest⟩ := ih hfound
    refine ⟨rest, fun other => ?_⟩
    rw [List.cons_append, List.cons_append, doubleQuoted?_escape hline, hrest]
    rfl
  | case5 text =>
    rw [List.cons_append, doubleQuoted?_cons (by decide) (by decide), if_pos rfl] at h
    contradiction
  | case6 c text hquote hbackslash hline ih =>
    by_cases hc : c = '\\'
    · -- A backslash at the end of the text would escape the line feed.
      obtain rfl : text = [] := by
        cases text with
        | nil => rfl
        | cons d text => exact (hbackslash d text hc rfl).elim
      rw [hc, List.cons_append, List.nil_append, doubleQuoted?, if_pos rfl] at h
      contradiction
    · rw [List.cons_append, doubleQuoted?_cons hquote hc, if_neg hline] at h
      obtain ⟨found, hfound, rfl⟩ := Option.map_eq_some_iff.1 h
      obtain ⟨rest, hrest⟩ := ih hfound
      refine ⟨rest, fun other => ?_⟩
      rw [List.cons_append, doubleQuoted?_cons hquote hc, if_neg hline, hrest]
      rfl

/-- Three quotes stand before another character or not, whatever is behind it. -/
theorem afterThree?_append_cons {quote c : Char} (hquote : quote ≠ c) (text after : List Char) :
    afterThree? quote (text ++ c :: after) = (afterThree? quote text).map (· ++ c :: after) := by
  match text with
  | [] =>
    cases after with
    | nil => rfl
    | cons b after =>
      cases after with
      | nil => rfl
      | cons d after => exact if_neg fun h => hquote h.1.symm
  | [a] =>
    cases after with
    | nil => rfl
    | cons b after => exact if_neg fun h => hquote h.2.1.symm
  | [a, b] => exact if_neg fun h => hquote h.2.2.symm
  | a :: b :: d :: rest =>
    simp only [List.cons_append, afterThree?]
    split <;> rfl

/-- Three quotes after an indentation end the lines of a string. -/
theorem quotedLines?_close {quote : Char} {text rest : List Char}
    (h : afterThree? quote (text.dropWhile isIndentation) = some rest) :
    quotedLines? quote text =
      some ⟨[], text.takeWhile isIndentation ++ [quote, quote, quote], rest⟩ := by
  rw [quotedLines?, h]

/-- A line that does not start with three quotes is the first of the lines of a string. -/
theorem quotedLines?_line {quote : Char} {line rest : List Char} (hline : '\n' ∉ line)
    (h : afterThree? quote ((line ++ '\n' :: rest).dropWhile isIndentation) = none) :
    quotedLines? quote (line ++ '\n' :: rest) =
      (quotedLines? quote rest).map fun more =>
        ⟨line :: more.lines, line ++ '\n' :: more.text, more.rest⟩ := by
  have hrun : ∀ c ∈ line, decide (c ≠ '\n') = true := by
    intro c hc
    exact decide_eq_true fun heq => hline (heq ▸ hc)
  have hdrop : (line ++ '\n' :: rest).dropWhile (· ≠ '\n') = '\n' :: rest :=
    Text.dropWhile_append_of_head? hrun (by simp)
  have htake : (line ++ '\n' :: rest).takeWhile (· ≠ '\n') = line :=
    Text.takeWhile_append_of_head? hrun (by simp)
  rw [quotedLines?, h]
  dsimp only
  split
  · rename_i heq
    rw [hdrop] at heq
    contradiction
  · rename_i heq
    rw [hdrop] at heq
    cases heq
    rw [htake]

/-- A string whose lines end with the source has none of them. -/
theorem quotedLines?_end {quote : Char} {line : List Char} (hline : '\n' ∉ line)
    (h : afterThree? quote (line.dropWhile isIndentation) = none) :
    quotedLines? quote line = none := by
  have hdrop : line.dropWhile (· ≠ '\n') = [] :=
    List.dropWhile_eq_nil_iff.2 fun c hc => decide_eq_true fun heq => hline (heq ▸ hc)
  rw [quotedLines?, h]
  dsimp only
  split
  · rfl
  · rename_i heq
    rw [hdrop] at heq
    contradiction

/-- The lines of a string are spelled by some characters. -/
theorem ne_nil_of_quotedLines? {quote : Char} {text : List Char} {found : Lines}
    (h : quotedLines? quote text = some found) : found.text ≠ [] := by
  fun_induction quotedLines? quote text generalizing found with
  | case1 =>
    cases h
    simp
  | case2 => contradiction
  | case3 =>
    obtain ⟨more, -, rfl⟩ := Option.map_eq_some_iff.1 h
    simp

/-- The lines of a string end before a line feed, or go on behind it. -/
theorem exists_quotedLines?_lineFeed {quote : Char} (hquote : quote ≠ '\n') {text after : List Char}
    {found : Lines} (h : quotedLines? quote (text ++ '\n' :: after) = some found) :
    (∃ rest, ∀ other, quotedLines? quote (text ++ '\n' :: other) =
      some ⟨found.lines, found.text, rest ++ '\n' :: other⟩) ∨
    ∃ more, more ≠ [] ∧ found.text = text ++ '\n' :: more := by
  have hthree (text other : List Char) :
      afterThree? quote ((text ++ '\n' :: other).dropWhile isIndentation) =
        (afterThree? quote (text.dropWhile isIndentation)).map (· ++ '\n' :: other) := by
    rw [Text.dropWhile_append_cons rfl, afterThree?_append_cons hquote]
  fun_induction quotedLines? quote text generalizing found with
  | case1 text rest hclose =>
    have hlines (other : List Char) : quotedLines? quote (text ++ '\n' :: other) =
        some ⟨[], text.takeWhile isIndentation ++ [quote, quote, quote],
          rest ++ '\n' :: other⟩ := by
      rw [quotedLines?_close (by rw [hthree, hclose]; rfl), Text.takeWhile_append_cons rfl]
    rw [hlines] at h
    cases h
    exact .inl ⟨rest, hlines⟩
  | case2 text hclose hdrop =>
    have hline : '\n' ∉ text := by
      intro hmem
      exact absurd (List.dropWhile_eq_nil_iff.1 hdrop _ hmem) (by decide)
    rw [quotedLines?_line hline (by rw [hthree, hclose]; rfl)] at h
    obtain ⟨more, hmore, rfl⟩ := Option.map_eq_some_iff.1 h
    exact .inr ⟨more.text, ne_nil_of_quotedLines? hmore, rfl⟩
  | case3 text hclose line lineFeed rest hdrop _ =>
    rename_i ih
    obtain rfl : lineFeed = '\n' := by
      have hstop : ∀ c ∈ (text.dropWhile (· ≠ '\n')).head?, decide (c ≠ '\n') = false :=
        Text.of_mem_head?_dropWhile
      rw [hdrop] at hstop
      simpa using hstop lineFeed rfl
    have hline : '\n' ∉ line := fun hmem => absurd (List.mem_takeWhile_imp hmem) (by decide)
    have htext : text = line ++ '\n' :: rest := by
      rw [← hdrop]
      exact List.takeWhile_append_dropWhile.symm
    have hnone (other : List Char) : quotedLines? quote (text ++ '\n' :: other) =
        (quotedLines? quote (rest ++ '\n' :: other)).map fun more =>
          ⟨line :: more.lines, line ++ '\n' :: more.text, more.rest⟩ := by
      have hfirst := hthree text other
      rw [hclose, htext, List.append_assoc] at hfirst
      rw [htext, List.append_assoc]
      exact quotedLines?_line hline hfirst
    rw [hnone] at h
    obtain ⟨more, hmore, rfl⟩ := Option.map_eq_some_iff.1 h
    rcases ih hmore with ⟨rest', hrest'⟩ | ⟨second, hne, hsecond⟩
    · refine .inl ⟨rest', fun other => ?_⟩
      rw [hnone, hrest']
      rfl
    · refine .inr ⟨second, hne, ?_⟩
      rw [hsecond, htext, List.append_assoc]
      rfl

/-- A line break at the front of a text is followed by the rest of the text, unless the line feed
after the text belongs to it. -/
theorem afterLineBreak?_lineFeed (text : List Char) :
    (∃ opening rest, ∀ after, afterLineBreak? (text ++ '\n' :: after) =
      some (opening, rest ++ '\n' :: after)) ∨
    (∀ after, afterLineBreak? (text ++ '\n' :: after) = some (text ++ ['\n'], after)) ∨
    ∀ after, afterLineBreak? (text ++ '\n' :: after) = none := by
  match text with
  | [] => exact .inr (.inl fun _ => rfl)
  | [c] =>
    by_cases hline : c = '\n'
    · subst hline
      exact .inl ⟨['\n'], [], fun _ => rfl⟩
    · by_cases hreturn : c = '\r'
      · subst hreturn
        exact .inr (.inl fun _ => rfl)
      · refine .inr (.inr fun after => ?_)
        simp [afterLineBreak?, hline, hreturn]
  | c :: d :: text =>
    by_cases hline : c = '\n'
    · subst hline
      exact .inl ⟨['\n'], d :: text, fun _ => rfl⟩
    · by_cases hreturn : c = '\r' ∧ d = '\n'
      · obtain ⟨rfl, rfl⟩ := hreturn
        exact .inl ⟨['\r', '\n'], text, fun _ => rfl⟩
      · refine .inr (.inr fun after => ?_)
        unfold afterLineBreak?
        split
        · rename_i heq
          exact absurd (List.cons.inj heq).1 hline
        · rename_i heq
          obtain ⟨hc, htail⟩ := List.cons.inj heq
          exact absurd ⟨hc, (List.cons.inj htail).1⟩ hreturn
        · rfl

/-- A string ends before a line feed, or goes on behind it. -/
theorem exists_cutString_lineFeed {quote : Char} (hquote : quote ≠ '\n')
    {text after remaining : List Char} {piece : Piece}
    (h : cutString quote (text ++ '\n' :: after) = .ok (piece, remaining)) :
    (∃ rest, ∀ other, cutString quote (text ++ '\n' :: other) =
      .ok (piece, rest ++ '\n' :: other)) ∨ piece.Spans (quote :: text) := by
  have hthree (other : List Char) : afterThree? quote (quote :: (text ++ '\n' :: other)) =
      (afterThree? quote (quote :: text)).map (· ++ '\n' :: other) :=
    afterThree?_append_cons hquote (quote :: text) other
  cases hopening : afterThree? quote (quote :: text) with
  | none =>
    simp only [cutString, hthree, hopening, Option.map_none] at h ⊢
    split at h
    · contradiction
    · rename_i body hbody
      obtain ⟨value, hvalue, hpiece⟩ := Result.of_map_eq_ok h
      cases hpiece
      obtain ⟨rest, hrest⟩ : ∃ rest, ∀ other,
          (if quote = '"' then doubleQuoted? (text ++ '\n' :: other)
            else singleQuoted? (text ++ '\n' :: other)) =
          some ⟨body.value, body.text, rest ++ '\n' :: other⟩ := by
        by_cases hdouble : quote = '"'
        · simp only [if_pos hdouble] at hbody ⊢
          exact exists_doubleQuoted?_lineFeed hbody
        · simp only [if_neg hdouble] at hbody ⊢
          exact exists_singleQuoted?_lineFeed hbody
      refine .inl ⟨rest, fun other => ?_⟩
      rw [hrest]
      dsimp only
      rw [hvalue]
      rfl
  | some inner =>
    simp only [cutString, hthree, hopening, Option.map_some] at h ⊢
    have htext : quote :: quote :: quote :: inner = quote :: text := append_of_afterThree? hopening
    rcases afterLineBreak?_lineFeed inner with ⟨opening, rest, hbreak⟩ | hbreak | hbreak
    · simp only [hbreak, Option.bind_some] at h ⊢
      cases hlines : quotedLines? quote (rest ++ '\n' :: after) with
      | none =>
        rw [hlines] at h
        contradiction
      | some found =>
        rw [hlines] at h
        obtain ⟨value, hvalue, hpiece⟩ := Result.of_map_eq_ok h
        cases hpiece
        rcases exists_quotedLines?_lineFeed hquote hlines with ⟨rest', hrest'⟩ | ⟨more, hne, hmore⟩
        · refine .inl ⟨rest', fun other => ?_⟩
          rw [hrest']
          dsimp only [Option.map_some]
          rw [hvalue]
          rfl
        · -- The line break and the rest make up the text after the quotes.
          have hinner : opening ++ rest = inner := by
            have happend := append_of_afterLineBreak? (hbreak [])
            rw [← List.append_assoc] at happend
            exact List.append_cancel_right happend
          refine .inr ⟨more, hne, ?_⟩
          simp only [ofString, hmore, ← htext, ← hinner, List.cons_append, List.append_assoc]
    · simp only [hbreak, Option.bind_some] at h
      cases hlines : quotedLines? quote after with
      | none =>
        rw [hlines] at h
        contradiction
      | some found =>
        rw [hlines] at h
        obtain ⟨value, hvalue, hpiece⟩ := Result.of_map_eq_ok h
        cases hpiece
        refine .inr ⟨found.text, ne_nil_of_quotedLines? hlines, ?_⟩
        simp only [ofString, ← htext, List.cons_append, List.append_assoc, List.nil_append]
    · simp only [hbreak, Option.bind_none] at h
      contradiction

/-- A piece is cut off a text before a line feed whatever is behind it, unless it is a string that
goes on there. -/
theorem exists_cut_lineFeed {c : Char} {text after remaining : List Char} {piece : Piece}
    (h : cut c (text ++ '\n' :: after) = .ok (piece, remaining)) :
    (∃ rest, ∀ other, cut c (text ++ '\n' :: other) = .ok (piece, rest ++ '\n' :: other)) ∨
      (∃ value, piece.kind = .lexeme (.string value)) ∧ piece.Spans (c :: text) := by
  have hmark (other : List Char) : mark? c (text ++ '\n' :: other) = mark? c (text ++ ['\n']) := by
    have hhead : (text ++ '\n' :: other).head? = (text ++ ['\n']).head? := by
      cases text <;> rfl
    rw [mark?, mark?, hhead]
  have hstays (piece' : Piece) (rest : List Char)
      (hcut : ∀ other, cut c (text ++ '\n' :: other) = .ok (piece', rest ++ '\n' :: other)) :
      ∃ rest, ∀ other, cut c (text ++ '\n' :: other) = .ok (piece, rest ++ '\n' :: other) := by
    rw [hcut] at h
    cases h
    exact ⟨rest, hcut⟩
  by_cases hblank : (c = ' ' || c = '\t' || c = '\r') = true
  · exact .inl (hstays ⟨.blank, [c]⟩ text fun other => by rw [cut, if_pos hblank])
  by_cases hcomment : c = '#'
  · refine .inl (hstays ⟨.comment, c :: text.takeWhile (· ≠ '\n')⟩ (text.dropWhile (· ≠ '\n'))
      fun other => ?_)
    rw [cut, if_neg hblank, if_pos hcomment, Text.takeWhile_append_cons (by decide),
      Text.dropWhile_append_cons (by decide)]
  by_cases hline : c = '\n'
  · refine .inl (hstays ⟨.lineBreak (text.takeWhile isIndentation),
      c :: text.takeWhile isIndentation⟩ (text.dropWhile isIndentation) fun other => ?_)
    rw [cut, if_neg hblank, if_neg hcomment, if_pos hline, Text.takeWhile_append_cons rfl,
      Text.dropWhile_append_cons rfl]
  by_cases hquote : (c = '\x27' || c = '"') = true
  · have hcut (other : List Char) : cut c (text ++ '\n' :: other) =
        cutString c (text ++ '\n' :: other) := by
      rw [cut, if_neg hblank, if_neg hcomment, if_neg hline, if_pos hquote]
    rw [hcut] at h
    rcases exists_cutString_lineFeed hline h with ⟨rest, hrest⟩ | hspans
    · exact .inl ⟨rest, fun other => (hcut other).trans (hrest other)⟩
    · exact .inr ⟨exists_of_cutString h, hspans⟩
  by_cases hbacktick : c = '\x60'
  · rw [cut, if_neg hblank, if_neg hcomment, if_neg hline, if_neg hquote, if_pos hbacktick] at h
    contradiction
  refine .inl ?_
  cases hfound : mark? c (text ++ ['\n']) with
  | some mark =>
    refine hstays ⟨.lexeme (.mark mark), [c]⟩ text fun other => ?_
    rw [cut, if_neg hblank, if_neg hcomment, if_neg hline, if_neg hquote, if_neg hbacktick, hmark,
      hfound]
  | none =>
    obtain ⟨front, rest, hsplit⟩ := exists_splitLiteral_lineFeed text
    refine hstays (literal (c :: front)) rest fun other => ?_
    rw [cut, if_neg hblank, if_neg hcomment, if_neg hline, if_neg hquote, if_neg hbacktick, hmark,
      hfound]
    dsimp only
    rw [hsplit]
    rfl

/-- The piece of a line feed before a source. -/
def ofLineBreak (source : List Char) : Piece :=
  ⟨.lineBreak (source.takeWhile isIndentation), '\n' :: source.takeWhile isIndentation⟩

/-- A line feed is cut with the indentation behind it. -/
theorem cuts_ofLineBreak (source : List Char) :
    Cuts ('\n' :: source) [ofLineBreak source] (source.dropWhile isIndentation) :=
  .single rfl

/-- A source is cut at a line feed: into the pieces before it, which do not depend on what is behind
it, and those behind it. Otherwise a string goes on behind the line feed. -/
theorem Cuts.lineFeed {text after : List Char} {pieces : List Piece}
    (h : Cuts (text ++ '\n' :: after) pieces []) :
    (∃ front back, pieces = front ++ ofLineBreak after :: back ∧
      (∀ other, Cuts (text ++ '\n' :: other) front ('\n' :: other)) ∧
      Cuts (after.dropWhile isIndentation) back []) ∨
    ∃ front piece back first, pieces = front ++ piece :: back ∧
      (∃ value, piece.kind = .lexeme (.string value)) ∧ piece.Spans first ∧
      texts front ++ first = text := by
  induction pieces generalizing text with
  | nil =>
    generalize hsource : text ++ '\n' :: after = source at h
    cases h
    exact absurd hsource (by simp)
  | cons piece pieces ih =>
    cases text with
    | nil =>
      cases h with
      | cons hcut hcuts =>
        cases hcut
        exact .inl ⟨[], pieces, rfl, fun _ => .nil, hcuts⟩
    | cons c text =>
      cases h with
      | cons hcut hcuts =>
        rcases exists_cut_lineFeed hcut with ⟨rest, hrest⟩ | ⟨hkind, hspans⟩
        · obtain rfl := (Prod.mk.inj (Except.ok.inj (hcut.symm.trans (hrest after)))).2
          have htext : piece.text ++ rest = c :: text := by
            have happend := (append_of_cut (hrest [])).1
            rw [← List.append_assoc] at happend
            exact List.append_cancel_right happend
          rcases ih hcuts with ⟨front, back, rfl, hfront, hback⟩ |
            ⟨front, other, back, first, rfl, hkind, hspans, hfirst⟩
          · exact .inl ⟨piece :: front, back, rfl, fun other => .cons (hrest other) (hfront other),
              hback⟩
          · refine .inr ⟨piece :: front, other, back, first, rfl, hkind, hspans, ?_⟩
            rw [texts_cons, List.append_assoc, hfirst, htext]
        · exact .inr ⟨[], piece, pieces, c :: text, rfl, hkind, hspans, rfl⟩

end NeonAudit.Piece
