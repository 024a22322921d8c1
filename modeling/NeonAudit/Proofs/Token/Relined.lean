import NeonAudit.Proofs.Place
import NeonAudit.Proofs.Token.LineFeed

/-!
# Other line ends and deeper lines

A text is relined by putting carriage returns before some of its line feeds and an indentation
behind each of them. What is cut off the front of a text depends on what stands up to the next line
feed, and a carriage return before that ends the same literals and indicators as the line feed
itself. So a relined text is cut into the same pieces, as far as they end on the line they start on;
only a comment takes the carriage return with it.
-/

namespace NeonAudit

/-- A place further to the right. -/
def Position.right (n : Nat) (p : Position) : Position :=
  ⟨p.line, p.column + n⟩

/-- A character that is no line feed leads as far from a place further to the right. -/
theorem Position.right_next {c : Char} (h : c ≠ '\n') (n : Nat) (p : Position) :
    (p.right n).next c = (p.next c).right n := by
  rw [next, next, if_neg h, if_neg h, right, right]
  exact congrArg (Position.mk p.line) (Nat.add_right_comm p.column n 1)

namespace Text

/-- The second text is the first one with carriage returns before some of its line feeds, and with
the indentation behind each of them. -/
inductive Relined (indent : List Char) : List Char → List Char → Prop
  | nil : Relined indent [] []
  | char {c text other} : c ≠ '\n' → Relined indent text other →
      Relined indent (c :: text) (c :: other)
  | lineFeed {text other} : Relined indent text other →
      Relined indent ('\n' :: text) ('\n' :: (indent ++ other))
  | withReturn {text other} : Relined indent text other →
      Relined indent ('\n' :: text) ('\r' :: '\n' :: (indent ++ other))

namespace Relined

variable {indent text other first second first' second' : List Char} {c : Char}

/-- A text without line feeds stays as it is. -/
theorem of_notMem (h : '\n' ∉ text) : Relined indent text text := by
  induction text with
  | nil => exact .nil
  | cons c text ih =>
    rw [List.mem_cons, not_or] at h
    exact .char (Ne.symm h.1) (ih h.2)

/-- A text may be relined in parts. -/
theorem append (h₁ : Relined indent first first') (h₂ : Relined indent second second') :
    Relined indent (first ++ second) (first' ++ second') := by
  induction h₁ with
  | nil => exact h₂
  | char hc _ ih => exact .char hc ih
  | lineFeed _ ih =>
    rw [List.cons_append, List.cons_append, List.append_assoc]
    exact .lineFeed ih
  | withReturn _ ih =>
    rw [List.cons_append, List.cons_append, List.cons_append, List.append_assoc]
    exact .withReturn ih

/-- A character that is no line feed stays where it is. -/
theorem of_cons (hc : c ≠ '\n') (h : Relined indent (c :: text) other) :
    ∃ rest, other = c :: rest ∧ Relined indent text rest := by
  generalize hsource : c :: text = source at h
  cases h with
  | nil => contradiction
  | char _ h =>
    cases hsource
    exact ⟨_, rfl, h⟩
  | lineFeed _ => exact absurd (List.cons.inj hsource).1 hc
  | withReturn _ => exact absurd (List.cons.inj hsource).1 hc

/-- A line feed may get a carriage return before it. -/
theorem of_lineFeed (h : Relined indent ('\n' :: text) other) :
    ∃ rest, Relined indent text rest ∧
      (other = '\n' :: (indent ++ rest) ∨ other = '\r' :: '\n' :: (indent ++ rest)) := by
  generalize hsource : '\n' :: text = source at h
  cases h with
  | nil => contradiction
  | char hc _ => exact absurd (List.cons.inj hsource).1.symm hc
  | lineFeed h =>
    cases hsource
    exact ⟨_, h, .inl rfl⟩
  | withReturn h =>
    cases hsource
    exact ⟨_, h, .inr rfl⟩

/-- A character that is no part of a line end has been there before. -/
theorem of_cons_right (hline : c ≠ '\n') (hreturn : c ≠ '\r')
    (h : Relined indent text (c :: other)) :
    ∃ rest, text = c :: rest ∧ Relined indent rest other := by
  generalize hsource : c :: other = source at h
  cases h with
  | nil => contradiction
  | char _ h =>
    cases hsource
    exact ⟨_, rfl, h⟩
  | lineFeed _ => exact absurd (List.cons.inj hsource).1 hline
  | withReturn _ => exact absurd (List.cons.inj hsource).1 hreturn

/-- A text has no line feed and stays as it is, or it is relined behind its first line. -/
theorem line (h : Relined indent text other) :
    ('\n' ∉ text ∧ other = text) ∨
      ∃ line rest rest', text = line ++ '\n' :: rest ∧ '\n' ∉ line ∧ Relined indent rest rest' ∧
        (other = line ++ '\n' :: (indent ++ rest') ∨
          other = line ++ '\r' :: '\n' :: (indent ++ rest')) := by
  induction h with
  | nil => exact .inl ⟨List.not_mem_nil, rfl⟩
  | @char c _ _ hc _ ih =>
    rcases ih with ⟨hline, rfl⟩ | ⟨line, rest, rest', rfl, hline, hrest, hother⟩
    · exact .inl ⟨by simpa using ⟨Ne.symm hc, hline⟩, rfl⟩
    · refine .inr ⟨c :: line, rest, rest', rfl, by simpa using ⟨Ne.symm hc, hline⟩, hrest, ?_⟩
      rcases hother with rfl | rfl
      · exact .inl rfl
      · exact .inr rfl
  | lineFeed h => exact .inr ⟨[], _, _, rfl, List.not_mem_nil, h, .inl rfl⟩
  | withReturn h => exact .inr ⟨[], _, _, rfl, List.not_mem_nil, h, .inr rfl⟩

/-- A relined text starts with the same indentation. -/
theorem takeWhile_isIndentation (h : Relined indent text other) :
    other.takeWhile Piece.isIndentation = text.takeWhile Piece.isIndentation := by
  induction h with
  | char hc _ ih => rw [List.takeWhile_cons, List.takeWhile_cons, ih]
  | _ => rfl

/-- What follows the indentation of a relined text is relined. -/
theorem dropWhile_isIndentation (h : Relined indent text other) :
    Relined indent (text.dropWhile Piece.isIndentation)
      (other.dropWhile Piece.isIndentation) := by
  induction h with
  | nil => exact .nil
  | char hc h ih =>
    rw [List.dropWhile_cons, List.dropWhile_cons]
    split
    · exact ih
    · exact .char hc h
  | lineFeed h => exact .lineFeed h
  | withReturn h => exact .withReturn h

/-- The same indicators close before a relined text. -/
theorem closesIndicator_head? (h : Relined indent text other) :
    Piece.closesIndicator other.head? = Piece.closesIndicator text.head? := by
  cases h <;> rfl

/-- The same literals go on before a relined text. -/
theorem goesOn (h : Relined indent text other) (c : Char) :
    Piece.goesOn c other = Piece.goesOn c text := by
  have hcontinues : Piece.continuesLiteral (other.dropWhile Piece.isIndentation) =
      Piece.continuesLiteral (text.dropWhile Piece.isIndentation) := by
    have hrest := h.dropWhile_isIndentation
    generalize text.dropWhile Piece.isIndentation = rest at hrest ⊢
    generalize other.dropWhile Piece.isIndentation = rest' at hrest ⊢
    cases hrest <;> rfl
  rw [Piece.goesOn, Piece.goesOn, h.closesIndicator_head?, hcontinues]

/-- The same character is a mark before a relined text. -/
theorem mark? (h : Relined indent text other) (c : Char) :
    Piece.mark? c other = Piece.mark? c text := by
  rw [Piece.mark?, Piece.mark?, h.closesIndicator_head?]

/-- A literal takes the same characters of a relined text, and no line feed. -/
theorem splitLiteral (h : Relined indent text other) :
    (Piece.splitLiteral other).1 = (Piece.splitLiteral text).1 ∧
      '\n' ∉ (Piece.splitLiteral text).1 ∧
        Relined indent (Piece.splitLiteral text).2 (Piece.splitLiteral other).2 := by
  induction h with
  | nil => exact ⟨rfl, List.not_mem_nil, .nil⟩
  | @char c _ _ hc h ih =>
    rw [Piece.splitLiteral_cons, Piece.splitLiteral_cons, h.goesOn]
    split
    · exact ⟨congrArg (c :: ·) ih.1, by simpa using ⟨Ne.symm hc, ih.2.1⟩, ih.2.2⟩
    · exact ⟨rfl, List.not_mem_nil, .char hc h⟩
  | lineFeed h => exact ⟨rfl, List.not_mem_nil, .lineFeed h⟩
  | withReturn h => exact ⟨rfl, List.not_mem_nil, .withReturn h⟩

/-- A text leads as far if it is relined and read further to the right by the indentation. -/
theorem after (hindent : '\n' ∉ indent) (h : Relined indent text other) (p : Position) :
    (p.right indent.length).after other = (p.after text).right indent.length := by
  have hline (line column : Nat) (text : List Char) :
      (Position.mk (line + 1) 1).after (indent ++ text) =
        ((Position.mk (line + 1) 1).right indent.length).after text := by
    rw [Position.after_append, Position.after_of_notMem hindent]
    rfl
  induction h generalizing p with
  | nil => rfl
  | char hc _ ih => rw [Position.after_cons, Position.after_cons, Position.right_next hc, ih]
  | lineFeed _ ih => exact (hline p.line p.column _).trans (ih _)
  | withReturn _ ih => exact (hline p.line p.column _).trans (ih _)

end Relined

end Text

namespace Piece

open Text (Relined)

variable {indent text other : List Char}

/-- Three quotes are at the front of a relined text where they are at the front of the text. -/
theorem afterThree?_relined {quote : Char} (hline : quote ≠ '\n') (hreturn : quote ≠ '\r')
    (h : Relined indent text other) :
    Option.Rel (Relined indent) (afterThree? quote text) (afterThree? quote other) := by
  cases hthree : afterThree? quote text with
  | some rest =>
    obtain rfl := append_of_afterThree? hthree
    obtain ⟨_, rfl, h₁⟩ := h.of_cons hline
    obtain ⟨_, rfl, h₂⟩ := h₁.of_cons hline
    obtain ⟨rest', rfl, h₃⟩ := h₂.of_cons hline
    have hother : afterThree? quote (quote :: quote :: quote :: rest') = some rest' :=
      if_pos ⟨rfl, rfl, rfl⟩
    rw [hother]
    exact .some h₃
  | none =>
    cases hother : afterThree? quote other with
    | none => exact .none
    | some rest =>
      obtain rfl := append_of_afterThree? hother
      obtain ⟨_, rfl, h₁⟩ := h.of_cons_right hline hreturn
      obtain ⟨_, rfl, h₂⟩ := h₁.of_cons_right hline hreturn
      obtain ⟨_, rfl, -⟩ := h₂.of_cons_right hline hreturn
      rw [afterThree?, if_pos ⟨rfl, rfl, rfl⟩] at hthree
      contradiction

/-- The second body denotes the same and is spelled alike on one line, before a relined text. -/
structure Body.Relined (indent : List Char) (body other : Body) : Prop where
  /-- The bodies denote the same. -/
  value : other.value = body.value
  /-- The bodies are spelled alike. -/
  text : other.text = body.text
  /-- The spelling is on one line. -/
  line : '\n' ∉ body.text
  /-- The text after the second body is that after the first one, relined. -/
  rest : Text.Relined indent body.rest other.rest

/-- Bodies stay alike with more characters before them. -/
theorem Body.Relined.map_extend {body? other? : Option Body} {spelled : List Char}
    (h : Option.Rel (Body.Relined indent) body? other?) (hline : '\n' ∉ spelled)
    (value : List Char) :
    Option.Rel (Body.Relined indent) (body?.map (.extend value spelled))
      (other?.map (.extend value spelled)) := by
  cases h with
  | none => exact .none
  | some h =>
    refine .some ⟨congrArg (value ++ ·) h.value, congrArg (spelled ++ ·) h.text, ?_, h.rest⟩
    rw [Body.extend, List.mem_append, not_or]
    exact ⟨hline, h.line⟩

/-- The same string in single quotes is at the front of a relined text. -/
theorem singleQuoted?_relined (h : Relined indent text other) :
    Option.Rel (Body.Relined indent) (singleQuoted? text) (singleQuoted? other) := by
  fun_induction singleQuoted? text generalizing other with
  | case1 =>
    cases h
    exact .none
  | case2 rest ih =>
    obtain ⟨_, rfl, hsecond⟩ := h.of_cons (by decide)
    obtain ⟨rest', rfl, hrest⟩ := hsecond.of_cons (by decide)
    rw [singleQuoted?]
    exact Body.Relined.map_extend (ih hrest) (by decide) _
  | case3 rest hsingle =>
    obtain ⟨rest', rfl, hrest⟩ := h.of_cons (by decide)
    have hcloses : singleQuoted? ('\x27' :: rest') = some ⟨[], ['\x27'], rest'⟩ := by
      rw [singleQuoted?]
      intro more hmore
      rw [hmore] at hrest
      obtain ⟨_, hsecond, -⟩ := hrest.of_cons_right (by decide) (by decide)
      exact hsingle _ hsecond
    rw [hcloses]
    exact .some ⟨rfl, rfl, (by decide : '\n' ∉ ['\x27']), hrest⟩
  | case4 rest =>
    obtain ⟨rest', -, rfl | rfl⟩ := h.of_lineFeed
    · rw [singleQuoted?_cons (by decide), if_pos rfl]
      exact .none
    · rw [singleQuoted?_cons (by decide), if_neg (by decide), singleQuoted?_cons (by decide),
        if_pos rfl]
      exact .none
  | case5 c rest _ hquote hline ih =>
    obtain ⟨rest', rfl, hrest⟩ := h.of_cons hline
    rw [singleQuoted?_cons hquote, if_neg hline]
    exact Body.Relined.map_extend (ih hrest) (by simpa using Ne.symm hline) _

/-- The same string in double quotes is at the front of a relined text. -/
theorem doubleQuoted?_relined (h : Relined indent text other) :
    Option.Rel (Body.Relined indent) (doubleQuoted? text) (doubleQuoted? other) := by
  fun_induction doubleQuoted? text generalizing other with
  | case1 =>
    cases h
    exact .none
  | case2 rest =>
    obtain ⟨rest', rfl, hrest⟩ := h.of_cons (by decide)
    rw [doubleQuoted?]
    exact .some ⟨rfl, rfl, (by decide : '\n' ∉ ['"']), hrest⟩
  | case3 rest =>
    obtain ⟨_, rfl, hsecond⟩ := h.of_cons (by decide)
    obtain ⟨rest', -, rfl | rfl⟩ := hsecond.of_lineFeed
    · rw [doubleQuoted?, if_pos rfl]
      exact .none
    · -- The carriage return is escaped, and the line feed behind it ends the line.
      rw [doubleQuoted?_escape (by decide), doubleQuoted?_cons (by decide) (by decide), if_pos rfl]
      exact .none
  | case4 c rest hline ih =>
    obtain ⟨_, rfl, hsecond⟩ := h.of_cons (by decide)
    obtain ⟨rest', rfl, hrest⟩ := hsecond.of_cons hline
    rw [doubleQuoted?_escape hline]
    exact Body.Relined.map_extend (ih hrest) (by simpa using Ne.symm hline) _
  | case5 rest =>
    obtain ⟨rest', -, rfl | rfl⟩ := h.of_lineFeed
    · rw [doubleQuoted?_cons (by decide) (by decide), if_pos rfl]
      exact .none
    · rw [doubleQuoted?_cons (by decide) (by decide), if_neg (by decide),
        doubleQuoted?_cons (by decide) (by decide), if_pos rfl]
      exact .none
  | case6 c rest hquote hbackslash hline ih =>
    obtain ⟨rest', rfl, hrest⟩ := h.of_cons hline
    by_cases hc : c = '\\'
    · -- Nothing is left to be escaped.
      obtain rfl : rest = [] := by
        cases rest with
        | nil => rfl
        | cons d rest => exact (hbackslash d rest hc rfl).elim
      cases hrest
      rw [hc]
      exact .none
    · rw [doubleQuoted?_cons hquote hc, if_neg hline]
      exact Body.Relined.map_extend (ih hrest) (by simpa using Ne.symm hline) _

/-- A relined text is cut as the text is: with the same fault; with the same token, its spelling
alike; or without a token, after which both are on the same column or their lines end. -/
inductive CutsAlike (indent : List Char) (Alike : List Char → List Char → Prop) :
    Except DecodeError.Cause (Piece × List Char) →
      Except DecodeError.Cause (Piece × List Char) → Prop
  | fault {cause} : CutsAlike indent Alike (.error cause) (.error cause)
  | lexeme {kind spelled spelled' rest rest'} : (∀ next, kind ≠ .lineBreak next) →
      Alike spelled spelled' → Relined indent spelled spelled' → Relined indent rest rest' →
        CutsAlike indent Alike (.ok (⟨.lexeme kind, spelled⟩, rest))
          (.ok (⟨.lexeme kind, spelled'⟩, rest'))
  | gap {kind spelled rest rest'} : kind ∈ [.blank, .comment] → '\n' ∉ spelled →
      Relined indent rest rest' →
        CutsAlike indent Alike (.ok (⟨kind, spelled⟩, rest)) (.ok (⟨kind, spelled⟩, rest'))
  | comment {spelled rest rest'} : '\n' ∉ spelled → Relined indent rest rest' →
      CutsAlike indent Alike (.ok (⟨.comment, spelled⟩, '\n' :: rest))
        (.ok (⟨.comment, spelled ++ ['\r']⟩, '\n' :: (indent ++ rest')))

/-- A comment is cut off a relined text too, with the carriage return at the end of its line. -/
theorem cutComment_relined {Alike : List Char → List Char → Prop}
    (h : Relined indent text other) :
    CutsAlike indent Alike
      (.ok (⟨.comment, '#' :: text.takeWhile (· ≠ '\n')⟩, text.dropWhile (· ≠ '\n')))
      (.ok (⟨.comment, '#' :: other.takeWhile (· ≠ '\n')⟩, other.dropWhile (· ≠ '\n'))) := by
  have hrun {line : List Char} (hline : '\n' ∉ line) : ∀ c ∈ line, decide (c ≠ '\n') = true :=
    fun c hc => decide_eq_true fun heq => hline (heq ▸ hc)
  have htake {line rest : List Char} (hline : '\n' ∉ line) :
      (line ++ '\n' :: rest).takeWhile (· ≠ '\n') = line :=
    Text.takeWhile_append_of_head? (hrun hline) (by simp)
  have hdrop {line rest : List Char} (hline : '\n' ∉ line) :
      (line ++ '\n' :: rest).dropWhile (· ≠ '\n') = '\n' :: rest :=
    Text.dropWhile_append_of_head? (hrun hline) (by simp)
  have hsharp {line : List Char} (hline : '\n' ∉ line) : '\n' ∉ '#' :: line := by
    simpa using hline
  rcases h.line with ⟨hline, rfl⟩ | ⟨line, rest, rest', rfl, hline, hrest, rfl | rfl⟩
  · refine .gap (by simp) (hsharp fun hmem => hline ((List.takeWhile_prefix _).subset hmem)) ?_
    exact .of_notMem fun hmem => hline ((List.dropWhile_suffix _).subset hmem)
  · rw [htake hline, htake hline, hdrop hline, hdrop hline]
    exact .gap (by simp) (hsharp hline) (.lineFeed hrest)
  · have hreturn : '\n' ∉ line ++ ['\r'] := by simpa using hline
    rw [htake hline, hdrop hline, List.append_cons line, htake hreturn, hdrop hreturn]
    exact .comment (hsharp hline) hrest

section Cut

variable {Alike : List Char → List Char → Prop} (hrefl : ∀ spelled, Alike spelled spelled)
include hrefl

/-- A lexeme that is spelled on one line is cut off a relined text too. -/
theorem CutsAlike.of_notMem {kind : Token.Kind} {spelled rest rest' : List Char}
    (hkind : ∀ next, kind ≠ .lineBreak next) (hline : '\n' ∉ spelled)
    (h : Relined indent rest rest') :
    CutsAlike indent Alike (.ok (⟨.lexeme kind, spelled⟩, rest))
      (.ok (⟨.lexeme kind, spelled⟩, rest')) :=
  .lexeme hkind (hrefl spelled) (.of_notMem hline) h

/-- A string on one line is cut off a relined text too. -/
theorem cutString_relined {quote : Char} (hquote : quote = '\x27' ∨ quote = '"')
    (hthree : afterThree? quote (quote :: text) = none) (h : Relined indent text other) :
    CutsAlike indent Alike (cutString quote text) (cutString quote other) := by
  have hline : quote ≠ '\n' := by rcases hquote with rfl | rfl <;> decide
  have hreturn : quote ≠ '\r' := by rcases hquote with rfl | rfl <;> decide
  have hnone : afterThree? quote (quote :: other) = none := by
    have hrel := afterThree?_relined hline hreturn (.char hline h)
    rw [hthree] at hrel
    generalize afterThree? quote (quote :: other) = found at hrel ⊢
    cases hrel
    rfl
  have hbody : Option.Rel (Body.Relined indent)
      (if quote = '"' then doubleQuoted? text else singleQuoted? text)
      (if quote = '"' then doubleQuoted? other else singleQuoted? other) := by
    split
    · exact doubleQuoted?_relined h
    · exact singleQuoted?_relined h
  rw [cutString, cutString, hthree, hnone]
  dsimp only
  generalize (if quote = '"' then doubleQuoted? text else singleQuoted? text) = body? at hbody ⊢
  generalize (if quote = '"' then doubleQuoted? other else singleQuoted? other) = other? at hbody ⊢
  cases hbody with
  | none => exact .fault
  | @some body body' hbody =>
    dsimp only
    rw [hbody.value, hbody.text]
    cases resolve quote body.value with
    | error cause => exact .fault
    | ok value =>
      refine CutsAlike.of_notMem hrefl (fun _ => Token.Kind.noConfusion) ?_ hbody.rest
      rw [List.mem_cons, not_or]
      exact ⟨Ne.symm hline, hbody.line⟩

/-- A relined text is cut as the text is, up to a line feed and a string that spans lines. -/
theorem cut_relined {c : Char} (hc : c ≠ '\n')
    (hthree : c = '\x27' ∨ c = '"' → afterThree? c (c :: text) = none)
    (h : Relined indent text other) :
    CutsAlike indent Alike (cut c text) (cut c other) := by
  have hspelled : '\n' ∉ [c] := by simpa using Ne.symm hc
  rw [cut, cut, h.mark?]
  by_cases hblank : (c = ' ' || c = '\t' || c = '\r') = true
  · rw [if_pos hblank, if_pos hblank]
    exact .gap (by simp) hspelled h
  rw [if_neg hblank, if_neg hblank]
  by_cases hsharp : c = '#'
  · rw [if_pos hsharp, if_pos hsharp, hsharp]
    exact cutComment_relined h
  rw [if_neg hsharp, if_neg hsharp, if_neg hc, if_neg hc]
  by_cases hquote : (c = '\x27' || c = '"') = true
  · rw [if_pos hquote, if_pos hquote]
    have hquote : c = '\x27' ∨ c = '"' := by simpa using hquote
    exact cutString_relined hrefl hquote (hthree hquote) h
  rw [if_neg hquote, if_neg hquote]
  by_cases hbacktick : c = '\x60'
  · rw [if_pos hbacktick, if_pos hbacktick]
    exact .fault
  · rw [if_neg hbacktick, if_neg hbacktick]
    cases mark? c text with
    | some mark =>
      exact CutsAlike.of_notMem hrefl (fun _ heq => Token.Kind.noConfusion heq) hspelled h
    | none =>
      obtain ⟨hsplit, hline, hrest⟩ := h.splitLiteral
      dsimp only
      rw [hsplit]
      refine CutsAlike.of_notMem hrefl (fun _ heq => Token.Kind.noConfusion heq) ?_ hrest
      rw [List.mem_cons, not_or]
      exact ⟨Ne.symm hc, hline⟩

end Cut

end Piece

end NeonAudit
