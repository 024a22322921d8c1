import NeonAudit.Proofs.Token.Lexeme

/-!
# Texts and the tokens they spell

`Spelled text P` says that the text is cut into pieces before whatever ends it, and that `P` holds of
their tokens wherever the text stands. It is closed under the ways in which texts are put together,
so that what holds of the tokens of a whole text follows from what holds of its parts. Tokens of such
texts start with one that is no line break, and line breaks among them are already merged.
-/

namespace NeonAudit

namespace Token

/-- Merging line breaks leaves the tokens as they are, whatever follows them. -/
def Merged (tokens : List Token) : Prop :=
  ∀ rest, mergeLineBreaks (tokens ++ rest) = tokens ++ mergeLineBreaks rest

/-- A token that is no line break is merged. -/
theorem merged_singleton {token : Token} (h : token.isLineBreak = false) : Merged [token] :=
  mergeLineBreaks_cons h

/-- Merged tokens may follow each other. -/
theorem Merged.append {first rest : List Token} (h₁ : Merged first) (h₂ : Merged rest) :
    Merged (first ++ rest) := by
  intro more
  rw [List.append_assoc, h₁, h₂, List.append_assoc]

/-- A line break may stand before merged tokens of which the first is no line break. -/
theorem Merged.cons {token : Token} {tokens : List Token} (h : Merged (token :: tokens))
    (htoken : token.isLineBreak = false) (lineBreak : Token) :
    Merged (lineBreak :: token :: tokens) := by
  intro more
  have htokens := h more
  rw [List.cons_append, mergeLineBreaks_cons htoken] at htokens
  rw [List.cons_append, List.cons_append, mergeLineBreaks_cons_cons lineBreak htoken, htokens]
  rfl

/-- The tokens start at the given place, with one that is no line break. -/
def Starts (p : Position) (tokens : List Token) : Prop :=
  ∃ token rest, tokens = token :: rest ∧ token.isLineBreak = false ∧ token.position = p

end Token

namespace Piece

/-- The text is cut into the pieces before whatever ends it. -/
structure Spells (text : List Char) (pieces : List Piece) : Prop where
  /-- The text does not start with an indentation. -/
  front : ∃ c rest, text = c :: rest ∧ isIndentation c = false
  /-- The pieces are what is cut off. -/
  cuts : ∀ {rest}, Ends rest → Cuts (text ++ rest) pieces rest
  /-- The first token is no line break, and stands at the start. -/
  starts : ∀ p, Token.Starts p (Token.ofPieces p pieces)
  /-- The line breaks are merged. -/
  merged : ∀ p, Token.Merged (Token.ofPieces p pieces)

/-- The pieces of a text make it up. -/
theorem Spells.texts_eq {text : List Char} {pieces : List Piece} (h : Spells text pieces) :
    texts pieces = text := by
  have htexts := (h.cuts ends_nil).texts_append
  rwa [List.append_nil, List.append_nil] at htexts

/-- The text before another text: it is cut into the pieces before whatever is no indentation. -/
structure Precedes (text : List Char) (pieces : List Piece) : Prop where
  /-- The pieces are what is cut off. -/
  cuts : ∀ {c} rest, isIndentation c = false → Cuts (text ++ c :: rest) pieces (c :: rest)
  /-- The line breaks stay merged. -/
  merged : ∀ p {q tokens}, Token.Starts q tokens → Token.Merged tokens →
    Token.Merged (Token.ofPieces p pieces ++ tokens)

/-- The text between two texts also ends the first one. -/
structure Joins (text : List Char) (pieces : List Piece) : Prop extends Precedes text pieces where
  /-- The text ends what stands before it. -/
  ends : ∀ {c} rest, isIndentation c = false → Ends (text ++ c :: rest)

/-- The text at the front of a text has a token of its own at its front. -/
structure Leads (text : List Char) (pieces : List Piece) : Prop extends Precedes text pieces where
  /-- The text does not start with an indentation. -/
  front : ∃ c rest, text = c :: rest ∧ isIndentation c = false
  /-- The first token is no line break, and stands at the start. -/
  starts : ∀ p, Token.Starts p (Token.ofPieces p pieces)

/-- The pieces before a text make up what is before it. -/
theorem Precedes.texts_eq {text : List Char} {pieces : List Piece} (h : Precedes text pieces) :
    texts pieces = text := by
  have htexts := (h.cuts [] (c := 'a') rfl).texts_append
  exact List.append_cancel_right htexts

end Piece

/-- The text spells tokens for which the property holds at every place. -/
def Spelled (text : List Char) (P : Position → List Token → Prop) : Prop :=
  ∃ pieces, Piece.Spells text pieces ∧ ∀ p, P p (Token.ofPieces p pieces)

/-- The text is empty or spells tokens, and the property holds at every place for its tokens. -/
inductive SpelledOrEmpty : List Char → (Position → List Token → Prop) → Prop
  | empty {P} : (∀ p, P p []) → SpelledOrEmpty [] P
  | spelled {text P} : Spelled text P → SpelledOrEmpty text P

namespace Spelled

open Piece

variable {first second text sep : List Char} {seps : List Piece}
  {P Q : Position → List Token → Prop}

/-- What follows from a property holds where the property holds. -/
theorem mono (h : Spelled text P) (himp : ∀ {p tokens}, P p tokens → Q p tokens) :
    Spelled text Q := by
  obtain ⟨pieces, hpieces, hP⟩ := h
  exact ⟨pieces, hpieces, fun p => himp (hP p)⟩

/-- The tokens of a text start where the text does. -/
theorem starting (h : Spelled text P) :
    Spelled text fun p tokens => Token.Starts p tokens ∧ P p tokens := by
  obtain ⟨pieces, hpieces, hP⟩ := h
  exact ⟨pieces, hpieces, fun p => ⟨hpieces.starts p, hP p⟩⟩

/-- A text that is cut as one lexeme spells one token. -/
theorem of_cuts {kind : Token.Kind}
    (hcuts : ∀ {rest}, Ends rest → Cuts (text ++ rest) [⟨.lexeme kind, text⟩] rest) :
    Spelled text fun p tokens => tokens = [⟨kind, String.ofList text, p⟩] := by
  have hcut := hcuts ends_nil
  rw [List.append_nil] at hcut
  generalize hsource : text = source at hcut
  cases hcut with
  | cons hcut hrest =>
    rename_i c source remaining
    subst hsource
    have hkind : ∀ indent, kind ≠ .lineBreak indent := by
      rcases cut_cases hcut with ⟨-, h, -⟩ | ⟨-, h, -⟩ | ⟨-, h, -⟩ | ⟨kind', h, hkind⟩
      · exact absurd (congrArg Piece.kind h) Piece.Kind.noConfusion
      · exact absurd (congrArg Piece.kind h) Piece.Kind.noConfusion
      · exact absurd (congrArg Piece.kind h) Piece.Kind.noConfusion
      · cases h
        exact hkind
    have hfront : isIndentation c = false := by
      rw [Bool.eq_false_iff]
      intro hc
      have hblank : cut c source = .ok (⟨.blank, [c]⟩, source) := by
        rcases Bool.or_eq_true_iff.1 hc with hc | hc <;> simp [cut, of_decide_eq_true hc]
      rw [hblank] at hcut
      cases hcut
    have hbreak (p : Position) :
        Token.isLineBreak ⟨kind, String.ofList (c :: source), p⟩ = false := by
      cases kind <;> first | rfl | exact absurd rfl (hkind _)
    refine ⟨_, ⟨⟨c, source, rfl, hfront⟩, hcuts, fun p => ?_, fun p => ?_⟩, fun p => rfl⟩
    · exact ⟨_, _, rfl, hbreak p, rfl⟩
    · exact Token.merged_singleton (hbreak p)

/-- Two texts with one between them spell the tokens of all three. -/
theorem join (h₁ : Spelled first P) (hsep : Joins sep seps) (h₂ : Spelled second Q) :
    Spelled (first ++ (sep ++ second)) fun p tokens => ∃ a b,
      tokens = a ++ (Token.ofPieces (p.after first) seps ++ b) ∧ P p a ∧
        Q (p.after (first ++ sep)) b := by
  obtain ⟨pieces, hpieces, hP⟩ := h₁
  obtain ⟨pieces', hpieces', hQ⟩ := h₂
  obtain ⟨c, rest, rfl, hc⟩ := hpieces'.front
  have htokens (p : Position) : Token.ofPieces p (pieces ++ (seps ++ pieces')) =
      Token.ofPieces p pieces ++ (Token.ofPieces (p.after first) seps ++
        Token.ofPieces (p.after (first ++ sep)) pieces') := by
    rw [Token.ofPieces_append, Token.ofPieces_append, hpieces.texts_eq, hsep.texts_eq,
      Position.after_append]
  refine ⟨pieces ++ (seps ++ pieces'), ⟨?_, ?_, fun p => ?_, fun p => ?_⟩, fun p => ?_⟩
  · obtain ⟨d, more, rfl, hd⟩ := hpieces.front
    exact ⟨d, _, rfl, hd⟩
  · intro more hmore
    rw [List.append_assoc, List.append_assoc]
    exact (hpieces.cuts (hsep.ends (rest ++ more) hc)).append
      ((hsep.cuts (rest ++ more) hc).append (hpieces'.cuts hmore))
  · obtain ⟨token, tokens, heq, htoken⟩ := hpieces.starts p
    exact ⟨token, _, by rw [htokens, heq]; rfl, htoken⟩
  · rw [htokens]
    exact (hpieces.merged p).append (hsep.merged _ (hpieces'.starts _) (hpieces'.merged _))
  · exact ⟨_, _, htokens p, hP p, hQ _⟩

/-- A text with another before it spells the tokens of both. -/
theorem lead (hlead : Leads sep seps) (h : Spelled text P) :
    Spelled (sep ++ text) fun p tokens => ∃ b,
      tokens = Token.ofPieces p seps ++ b ∧ P (p.after sep) b := by
  obtain ⟨pieces, hpieces, hP⟩ := h
  obtain ⟨c, rest, rfl, hc⟩ := hpieces.front
  have htokens (p : Position) : Token.ofPieces p (seps ++ pieces) =
      Token.ofPieces p seps ++ Token.ofPieces (p.after sep) pieces := by
    rw [Token.ofPieces_append, hlead.texts_eq]
  refine ⟨seps ++ pieces, ⟨?_, ?_, fun p => ?_, fun p => ?_⟩, fun p => ?_⟩
  · obtain ⟨d, more, rfl, hd⟩ := hlead.front
    exact ⟨d, _, rfl, hd⟩
  · intro more hmore
    rw [List.append_assoc]
    exact (hlead.cuts (rest ++ more) hc).append (hpieces.cuts hmore)
  · obtain ⟨token, tokens, heq, htoken⟩ := hlead.starts p
    exact ⟨token, _, by rw [htokens, heq]; rfl, htoken⟩
  · rw [htokens]
    exact hlead.merged _ (hpieces.starts _) (hpieces.merged _)
  · exact ⟨_, htokens p, hP _⟩

/-- A mark that is no indicator spells its token. -/
theorem ofMark (mark : Mark) (h : bracketOrSeparator? mark.char = some mark) :
    Spelled [mark.char] fun p tokens => tokens = [⟨.mark mark, String.ofList [mark.char], p⟩] :=
  of_cuts fun _ => cuts_mark mark h _

/-- A text with a mark after it spells one token more if the mark ends it. -/
theorem close (h : Spelled text P) (mark : Mark)
    (hmark : bracketOrSeparator? mark.char = some mark) (hends : endsLiteral mark.char = true) :
    Spelled (text ++ [mark.char]) fun p tokens => ∃ a token,
      tokens = a ++ [token] ∧ token.kind = .mark mark ∧ P p a := by
  obtain ⟨pieces, hpieces, hP⟩ := h
  have htokens (p : Position) : Token.ofPieces p (pieces ++ [Piece.ofMark mark]) =
      Token.ofPieces p pieces ++ [⟨.mark mark, String.ofList [mark.char], p.after text⟩] := by
    rw [Token.ofPieces_append, hpieces.texts_eq]
    rfl
  refine ⟨pieces ++ [Piece.ofMark mark], ⟨?_, ?_, fun p => ?_, fun p => ?_⟩, fun p => ?_⟩
  · obtain ⟨d, more, rfl, hd⟩ := hpieces.front
    exact ⟨d, _, rfl, hd⟩
  · intro rest _
    rw [List.append_assoc]
    exact (hpieces.cuts (ends_of_endsLiteral hends rest)).append (cuts_mark mark hmark rest)
  · obtain ⟨token, tokens, heq, htoken⟩ := hpieces.starts p
    exact ⟨token, _, by rw [htokens, heq]; rfl, htoken⟩
  · rw [htokens]
    exact (hpieces.merged p).append (Token.merged_singleton rfl)
  · exact ⟨_, _, htokens p, rfl, hP p⟩

end Spelled

namespace Piece

section Precedes

variable {text : List Char} {pieces : List Piece}

/-- Nothing may stand before a text. -/
theorem precedes_nil : Precedes [] [] where
  cuts _ _ := .nil
  merged _ _ _ _ hmerged := hmerged

/-- A space may stand before a text. -/
theorem precedes_space : Precedes [' '] [space] where
  cuts _ _ := cuts_space _
  merged _ _ _ _ hmerged := hmerged

/-- A mark may stand before what precedes a text. -/
theorem Precedes.cons (h : Precedes text pieces) (mark : Mark)
    (hcuts : ∀ rest, Cuts (mark.char :: (text ++ rest)) [ofMark mark] (text ++ rest)) :
    Precedes (mark.char :: text) (ofMark mark :: pieces) where
  cuts rest hc := (hcuts (_ :: rest)).append (h.cuts rest hc)
  merged _ _ _ hstarts hmerged := (Token.merged_singleton rfl).append (h.merged _ hstarts hmerged)

/-- A mark that ends what stands before it stands between two texts. -/
theorem Precedes.joins_mark (h : Precedes text pieces) (mark : Mark)
    (hmark : bracketOrSeparator? mark.char = some mark) (hends : endsLiteral mark.char = true) :
    Joins (mark.char :: text) (ofMark mark :: pieces) where
  toPrecedes := h.cons mark fun _ => cuts_mark mark hmark _
  ends _ _ := ends_of_endsLiteral hends _

/-- A colon stands between a key and its value before what makes it a mark. -/
theorem Precedes.joins_colon (h : Precedes text pieces)
    (hcloses : ∀ rest, closesIndicator (text ++ rest).head? = true) :
    Joins (':' :: text) (ofMark .colon :: pieces) where
  toPrecedes := h.cons .colon fun rest => cuts_indicator .colon rfl (hcloses rest)
  ends rest _ := ends_colon (hcloses (_ :: rest))

/-- An opening bracket stands before a text. -/
theorem leads_mark (mark : Mark) (hmark : bracketOrSeparator? mark.char = some mark) :
    Leads [mark.char] [ofMark mark] where
  toPrecedes := precedes_nil.cons mark fun rest => cuts_mark mark hmark rest
  front := ⟨_, [], rfl, by cases mark <;> rfl⟩
  starts _ := ⟨_, [], rfl, rfl, rfl⟩

/-- A dash stands before an item before what makes it a mark. -/
theorem Precedes.leads_dash (h : Precedes text pieces)
    (hcloses : ∀ rest, closesIndicator (text ++ rest).head? = true) :
    Leads ('-' :: text) (ofMark .dash :: pieces) where
  toPrecedes := h.cons .dash fun rest => cuts_indicator .dash rfl (hcloses rest)
  front := ⟨_, _, rfl, rfl⟩
  starts _ := ⟨_, _, rfl, rfl, rfl⟩

end Precedes

end Piece

section Mark

open Piece

variable {first second text : List Char} {P Q : Position → List Token → Prop}

/-- A text may follow another after a mark that ends the first one. -/
theorem Spelled.follow (h₁ : Spelled first P) (mark : Mark)
    (hmark : bracketOrSeparator? mark.char = some mark) (hends : endsLiteral mark.char = true)
    (h₂ : SpelledOrEmpty second Q) :
    Spelled (first ++ mark.char :: second) fun p tokens => ∃ a token b,
      tokens = a ++ token :: b ∧ token.kind = .mark mark ∧ P p a ∧
        Q (p.after (first ++ [mark.char])) b := by
  cases h₂ with
  | empty hQ =>
    refine (h₁.close mark hmark hends).mono ?_
    rintro p tokens ⟨a, token, rfl, hkind, ha⟩
    exact ⟨a, token, [], rfl, hkind, ha, hQ _⟩
  | spelled h₂ =>
    refine (h₁.join (precedes_nil.joins_mark mark hmark hends) h₂).mono ?_
    rintro p tokens ⟨a, b, rfl, ha, hb⟩
    exact ⟨a, _, b, rfl, rfl, ha, hb⟩

/-- A text may stand between two brackets. -/
theorem SpelledOrEmpty.enclose (h : SpelledOrEmpty text P) (openMark closeMark : Mark)
    (hopen : bracketOrSeparator? openMark.char = some openMark)
    (hclose : bracketOrSeparator? closeMark.char = some closeMark)
    (hends : endsLiteral closeMark.char = true) :
    Spelled (openMark.char :: text ++ [closeMark.char]) fun p tokens => ∃ opening a closing,
      tokens = opening :: (a ++ [closing]) ∧ opening.kind = .mark openMark ∧
        closing.kind = .mark closeMark ∧ P (p.after [openMark.char]) a := by
  cases h with
  | empty hP =>
    refine ((Spelled.ofMark openMark hopen).close closeMark hclose hends).mono ?_
    rintro p tokens ⟨_, closing, rfl, hkind, rfl⟩
    exact ⟨_, [], closing, rfl, rfl, hkind, hP _⟩
  | spelled h =>
    refine ((h.lead (leads_mark openMark hopen)).close closeMark hclose hends).mono ?_
    rintro p tokens ⟨_, closing, rfl, hkind, a, rfl, ha⟩
    exact ⟨_, a, closing, rfl, rfl, hkind, ha⟩

end Mark

end NeonAudit
