import NeonAudit.Token.Piece

/-!
# Cutting a source

Whether and how a source is cut into pieces does not depend on where it stands. `Cuts` states one
piece after another what is cut off the front of a source, so that a source can be cut in parts, and
the run of the lexer over a whole source is the case in which nothing is left. The tokens of pieces
are likewise those of their parts, and merging line breaks stops at every other token.
-/

namespace NeonAudit

namespace Piece

/-- A source is cut into pieces up to a rest. -/
inductive Cuts : (source : List Char) → List Piece → (rest : List Char) → Prop
  | nil {rest} : Cuts rest [] rest
  | cons {c source remaining rest piece pieces} :
      cut c source = .ok (piece, remaining) → Cuts remaining pieces rest →
        Cuts (c :: source) (piece :: pieces) rest

/-- The characters of pieces in order. -/
def texts (pieces : List Piece) : List Char :=
  pieces.flatMap Piece.text

@[simp] theorem texts_nil : texts [] = [] := rfl

@[simp] theorem texts_cons (piece : Piece) (pieces : List Piece) :
    texts (piece :: pieces) = piece.text ++ texts pieces := List.flatMap_cons

/-- The piece of a string is a token. -/
theorem exists_of_cutString {quote : Char} {rest remaining : List Char} {piece : Piece}
    (h : cutString quote rest = .ok (piece, remaining)) :
    ∃ value, piece.kind = .lexeme (.string value) := by
  unfold cutString at h
  repeat' split at h
  all_goals first
    | contradiction
    | (obtain ⟨value, -, hpiece⟩ := Result.of_map_eq_ok h
       cases hpiece
       exact ⟨_, rfl⟩)

/-- The piece at the front is a blank character, a comment, a line break, or the spelling of a token
that is no line break. -/
theorem cut_cases {c : Char} {source remaining : List Char} {piece : Piece}
    (h : cut c source = .ok (piece, remaining)) :
    (c ∈ [' ', '\t', '\r'] ∧ piece = ⟨.blank, [c]⟩ ∧ remaining = source) ∨
    (c = '#' ∧ piece = ⟨.comment, '#' :: source.takeWhile (· ≠ '\n')⟩ ∧
      remaining = source.dropWhile (· ≠ '\n')) ∨
    (c = '\n' ∧ piece = ⟨.lineBreak (source.takeWhile isIndentation),
        '\n' :: source.takeWhile isIndentation⟩ ∧
      remaining = source.dropWhile isIndentation) ∨
    ∃ kind, piece.kind = .lexeme kind ∧ ∀ indent, kind ≠ .lineBreak indent := by
  unfold cut at h
  split at h
  · rename_i hc
    cases h
    exact .inl ⟨by simpa [or_assoc] using hc, rfl, rfl⟩
  split at h
  · rename_i hc
    cases h
    exact .inr (.inl ⟨hc, by rw [hc], rfl⟩)
  split at h
  · rename_i hc
    cases h
    exact .inr (.inr (.inl ⟨hc, by rw [hc], rfl⟩))
  refine .inr (.inr (.inr ?_))
  repeat' split at h
  · obtain ⟨value, hvalue⟩ := exists_of_cutString h
    exact ⟨_, hvalue, fun _ => Token.Kind.noConfusion⟩
  · contradiction
  · cases h
    exact ⟨_, rfl, fun _ => Token.Kind.noConfusion⟩
  · cases h
    exact ⟨_, rfl, fun _ => Token.Kind.noConfusion⟩

/-- One piece that is cut off the front. -/
theorem Cuts.single {c : Char} {source rest : List Char} {piece : Piece}
    (h : cut c source = .ok (piece, rest)) : Cuts (c :: source) [piece] rest :=
  .cons h .nil

/-- A source is cut in parts. -/
theorem Cuts.append {source middle rest : List Char} {first second : List Piece}
    (h₁ : Cuts source first middle) (h₂ : Cuts middle second rest) :
    Cuts source (first ++ second) rest := by
  induction h₁ with
  | nil => exact h₂
  | cons hcut _ ih => exact .cons hcut (ih h₂)

/-- The pieces and the rest make up the source. -/
theorem Cuts.texts_append {source rest : List Char} {pieces : List Piece}
    (h : Cuts source pieces rest) : texts pieces ++ rest = source := by
  induction h with
  | nil => rfl
  | cons hcut _ ih =>
    rw [texts_cons, List.append_assoc, ih]
    exact (append_of_cut hcut).1

/-- The next piece of a source that does not end here, or the fault at its place. -/
theorem ofSource_cons (p : Position) (c : Char) (rest : List Char) :
    ofSource p (c :: rest) =
      match cut c rest with
      | .error cause => .error ⟨cause, p⟩
      | .ok (piece, remaining) => (ofSource (p.after piece.text) remaining).map (piece :: ·) := by
  rw [ofSource]
  split <;> rename_i h <;> simp only [h]

/-- After a part of a source has been cut, the run goes on behind it. -/
theorem Cuts.ofSource {source rest : List Char} {pieces : List Piece}
    (h : Cuts source pieces rest) (p : Position) :
    ofSource p source = (ofSource (p.after (texts pieces)) rest).map (pieces ++ ·) := by
  induction h generalizing p with
  | nil =>
    rw [texts_nil, Position.after_nil]
    cases Piece.ofSource p _ <;> rfl
  | cons hcut _ ih =>
    rw [ofSource_cons, hcut]
    simp only [ih, texts_cons, Position.after_append]
    cases Piece.ofSource _ _ <;> rfl

/-- The run over a source that is cut to its end gives its pieces. -/
theorem Cuts.ofSource_eq_ok {source : List Char} {pieces : List Piece}
    (h : Cuts source pieces []) (p : Position) : Piece.ofSource p source = .ok pieces := by
  rw [h.ofSource p, Piece.ofSource]
  exact congrArg Except.ok (List.append_nil pieces)

/-- A source is cut to its end into the pieces that the run gives. -/
theorem cuts_of_ofSource {p : Position} {source : List Char} {pieces : List Piece}
    (h : ofSource p source = .ok pieces) : Cuts source pieces [] := by
  fun_induction ofSource p source generalizing pieces with
  | case1 =>
    cases h
    exact .nil
  | case2 => contradiction
  | case3 p c rest piece remaining hcut _ ih =>
    obtain ⟨pieces', hrun, rfl⟩ := Result.of_map_eq_ok h
    exact .cons hcut (ih hrun)

/-- A run that fails has cut a part of the source, and its fault is that of the next piece. -/
theorem cuts_of_ofSource_eq_error {p : Position} {source : List Char} {e : DecodeError}
    (h : ofSource p source = .error e) :
    ∃ pieces c rest, Cuts source pieces (c :: rest) ∧ cut c rest = .error e.cause ∧
      e.position = p.after (texts pieces) := by
  fun_induction ofSource p source with
  | case1 => contradiction
  | case2 p c rest cause hcut =>
    cases h
    exact ⟨[], c, rest, .nil, hcut, rfl⟩
  | case3 p c rest piece remaining hcut _ ih =>
    cases hrun : ofSource (p.after piece.text) remaining with
    | ok pieces =>
      rw [hrun] at h
      contradiction
    | error e' =>
      rw [hrun] at h
      cases h
      obtain ⟨pieces, c', rest', hcuts, hfault, hposition⟩ := ih hrun
      refine ⟨piece :: pieces, c', rest', .cons hcut hcuts, hfault, ?_⟩
      rw [hposition, texts_cons, Position.after_append]

end Piece

namespace Token

/-- The tokens of pieces are those of their parts. -/
theorem ofPieces_append (p : Position) (first rest : List Piece) :
    ofPieces p (first ++ rest) = ofPieces p first ++ ofPieces (p.after (Piece.texts first)) rest := by
  induction first generalizing p with
  | nil => rfl
  | cons piece first ih =>
    rw [List.cons_append, Piece.texts_cons, Position.after_append, ofPieces, ofPieces, ih]
    cases piece.kind <;> rfl

/-- Merging line breaks only drops tokens. -/
theorem mergeLineBreaks_sublist (tokens : List Token) : (mergeLineBreaks tokens).Sublist tokens := by
  induction tokens with
  | nil => exact .slnil
  | cons token rest ih =>
    rw [mergeLineBreaks]
    split
    · exact ih.cons token
    · exact ih.cons_cons token

/-- The tokens are line breaks. -/
def Breaks (tokens : List Token) : Prop :=
  ∀ token ∈ tokens, token.isLineBreak = true

/-- Line breaks are merged into line breaks. -/
theorem Breaks.mergeLineBreaks {tokens : List Token} (h : Breaks tokens) :
    Breaks (mergeLineBreaks tokens) :=
  fun token hmem => h token ((mergeLineBreaks_sublist tokens).subset hmem)

/-- A token that is no line break stays where it is. -/
theorem mergeLineBreaks_cons {token : Token} (h : token.isLineBreak = false) (rest : List Token) :
    mergeLineBreaks (token :: rest) = token :: mergeLineBreaks rest := by
  rw [mergeLineBreaks, h, Bool.false_and, if_neg Bool.false_ne_true]

/-- A line break stays before a token that is none. -/
theorem mergeLineBreaks_cons_cons (lineBreak : Token) {token : Token}
    (h : token.isLineBreak = false) (rest : List Token) :
    mergeLineBreaks (lineBreak :: token :: rest) =
      lineBreak :: token :: mergeLineBreaks rest := by
  rw [mergeLineBreaks, List.head?_cons, Option.any_some, h, Bool.and_false,
    if_neg Bool.false_ne_true, mergeLineBreaks_cons h]

end Token

end NeonAudit
