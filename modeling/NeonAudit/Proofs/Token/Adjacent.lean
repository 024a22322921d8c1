import NeonAudit.Proofs.Token.Coverage

/-!
# Tokens after marks and line breaks

A mark is a single character, and what is between two tokens of a line holds no line feed. So the
token after a mark is further to the right on the same line, unless a line break is between them,
and the token after a line break stands behind the indentation that the line break holds. After a
string none of this is so, as it may span lines.
-/

namespace NeonAudit

namespace Position

/-- The second place is on the line of the first one and not before it. -/
def LeadsTo (p q : Position) : Prop :=
  q.line = p.line ∧ p.column ≤ q.column

/-- What leads to a place on the line of another one leads to that one. -/
theorem LeadsTo.trans {p q r : Position} (hpq : p.LeadsTo q) (hqr : q.LeadsTo r) : p.LeadsTo r :=
  ⟨hqr.1.trans hpq.1, Nat.le_trans hpq.2 hqr.2⟩

/-- Text without line feeds stays on its line. -/
theorem leadsTo_after {text : List Char} (h : '\n' ∉ text) (p : Position) :
    p.LeadsTo (p.after text) := by
  rw [after_of_notMem h]
  exact ⟨rfl, Nat.le_add_right _ _⟩

end Position

/-- A mark is one character, and no line feed. -/
theorem Piece.text_of_cut_mark {c : Char} {source remaining : List Char} {piece : Piece}
    {mark : Mark} (h : cut c source = .ok (piece, remaining))
    (hkind : piece.kind = .lexeme (.mark mark)) : piece.text = [c] ∧ c ≠ '\n' := by
  unfold cut at h
  split at h
  · cases h
    cases hkind
  split at h
  · cases h
    cases hkind
  split at h
  · cases h
    cases hkind
  rename_i hline
  split at h
  · obtain ⟨value, hvalue⟩ := exists_of_cutString h
    rw [hvalue] at hkind
    cases hkind
  split at h
  · contradiction
  split at h
  · cases h
    exact ⟨rfl, hline⟩
  · cases h
    cases hkind

namespace Token

/-- Where the line goes on after a mark or a line break. -/
def lineAfter? (token : Token) : Option Position :=
  match token.kind with
  | .mark _ => some ⟨token.position.line, token.position.column + 1⟩
  | .lineBreak indent => some ⟨token.position.line, indent.length + 1⟩
  | _ => none

/-- The place leads to the first of the tokens, unless that is a line break. -/
def StartFrom (p : Position) (tokens : List Token) : Prop :=
  ∀ token ∈ tokens.head?, token.isLineBreak = false → p.LeadsTo token.position

/-- Where the line goes on after a token leads to the next one, unless that is a line break. -/
def LeadsOn (token next : Token) : Prop :=
  ∀ p ∈ token.lineAfter?, next.isLineBreak = false → p.LeadsTo next.position

/-- Tokens lead on if the first one does and the others do. -/
theorem isChain_leadsOn_cons {token : Token} {tokens : List Token} :
    (token :: tokens).IsChain LeadsOn ↔
      (∀ p ∈ token.lineAfter?, StartFrom p tokens) ∧ tokens.IsChain LeadsOn := by
  rw [List.isChain_cons]
  exact and_congr_left' ⟨fun h p hp next hnext => h next hnext p hp,
    fun h next hnext p hp => h p hp next hnext⟩

/-- After the line break before a line, the line goes on behind its indentation. -/
theorem lineAfter?_lineBreak (line : Nat) (source : List Char) :
    lineAfter? ⟨.lineBreak (source.takeWhile Piece.isIndentation), "\n",
        Position.after ⟨line, 1⟩ (source.takeWhile Piece.isIndentation)⟩ =
      some (Position.after ⟨line, 1⟩ (source.takeWhile Piece.isIndentation)) := by
  rw [Position.after_of_notMem (Piece.notMem_takeWhile_isIndentation source), Nat.add_comm]
  rfl

/-- The first piece of a source has no token and stays on its line, or it has one. That is at the
place unless it is a line break, and where its line goes on, the piece ends. -/
theorem ofPieces_cases {c : Char} {source remaining : List Char} {piece : Piece}
    (h : Piece.cut c source = .ok (piece, remaining)) (p : Position) (pieces : List Piece) :
    ('\n' ∉ piece.text ∧ ofPieces p (piece :: pieces) = ofPieces (p.after piece.text) pieces) ∨
      ∃ token, ofPieces p (piece :: pieces) = token :: ofPieces (p.after piece.text) pieces ∧
        (token.isLineBreak = false → token.position = p) ∧
        ∀ q ∈ token.lineAfter?, q = p.after piece.text := by
  rcases Piece.cut_cases h with
    ⟨hc, rfl, -⟩ | ⟨-, rfl, -⟩ | ⟨-, rfl, -⟩ | ⟨kind, hkind, hbreak⟩
  · exact .inl ⟨Piece.notMem_singleton hc, rfl⟩
  · exact .inl ⟨Piece.notMem_comment source, rfl⟩
  · refine .inr ⟨_, rfl, fun hbreak => by contradiction, fun q hq => ?_⟩
    exact Option.some.inj (hq.symm.trans (lineAfter?_lineBreak (p.line + 1) source))
  · refine .inr ⟨⟨kind, String.ofList piece.text, p⟩, by rw [ofPieces, hkind], fun _ => rfl,
      fun q hq => ?_⟩
    cases kind with
    | lineBreak indent => exact absurd rfl (hbreak indent)
    | mark mark =>
      obtain ⟨htext, hc⟩ := Piece.text_of_cut_mark h hkind
      obtain rfl := Option.some.inj hq
      rw [htext, Position.after_cons, Position.after_nil, Position.next, if_neg hc]
    | literal raw => contradiction
    | string value => contradiction

/-- The place of a source leads to the first of its tokens. -/
theorem startFrom_of_cuts {source rest : List Char} {pieces : List Piece}
    (h : Piece.Cuts source pieces rest) (p : Position) :
    StartFrom p (mergeLineBreaks (ofPieces p pieces)) := by
  induction h generalizing p with
  | nil => exact fun _ htoken => nomatch htoken
  | @cons c source remaining rest piece pieces hcut _ ih =>
    rcases ofPieces_cases hcut p pieces with ⟨hline, htokens⟩ | ⟨token, htokens, hposition, -⟩
    · rw [htokens]
      exact fun token htoken hbreak =>
        (Position.leadsTo_after hline p).trans (ih _ token htoken hbreak)
    · intro first hfirst hbreak
      have hhead := isLineBreak_head_mergeLineBreaks (ofPieces p (piece :: pieces))
      rw [Option.mem_def.1 hfirst, htokens, Option.any_some, List.head?_cons, Option.any_some,
        hbreak] at hhead
      rw [htokens, mergeLineBreaks_cons hhead.symm] at hfirst
      cases hfirst
      rw [hposition hbreak]
      exact ⟨rfl, Nat.le_refl _⟩

/-- Tokens lead on after another one if where its line goes on leads to the first of them. -/
theorem isChain_mergeLineBreaks_cons {token : Token} {tokens : List Token}
    (hfirst : ∀ p ∈ token.lineAfter?, StartFrom p (mergeLineBreaks tokens))
    (hrest : (mergeLineBreaks tokens).IsChain LeadsOn) :
    (mergeLineBreaks (token :: tokens)).IsChain LeadsOn := by
  rw [mergeLineBreaks]
  split
  · exact hrest
  · exact isChain_leadsOn_cons.2 ⟨hfirst, hrest⟩

/-- The tokens of a source lead on from each to the next. -/
theorem isChain_of_cuts {source rest : List Char} {pieces : List Piece}
    (h : Piece.Cuts source pieces rest) (p : Position) :
    (mergeLineBreaks (ofPieces p pieces)).IsChain LeadsOn := by
  induction h generalizing p with
  | nil => exact .nil
  | @cons c source remaining rest piece pieces hcut hcuts ih =>
    rcases ofPieces_cases hcut p pieces with ⟨-, htokens⟩ | ⟨token, htokens, -, hafter⟩
    · rw [htokens]
      exact ih _
    · rw [htokens]
      exact isChain_mergeLineBreaks_cons (fun q hq => hafter q hq ▸ startFrom_of_cuts hcuts _)
        (ih _)

end Token

/-- Of the tokens of a source, each leads on to the next. -/
theorem TokenStream.isChain_leadsOn_of_ofSource {source : List Char} {stream : TokenStream}
    (h : TokenStream.ofSource source = .ok stream) : stream.tokens.IsChain Token.LeadsOn := by
  obtain ⟨pieces, hpieces, rfl⟩ := Result.of_map_eq_ok h
  have hcuts := Piece.cuts_of_ofSource hpieces
  refine Token.isChain_mergeLineBreaks_cons (fun q hq => ?_) (Token.isChain_of_cuts hcuts _)
  obtain rfl := Option.some.inj (hq.symm.trans (Token.lineAfter?_lineBreak 1 source))
  exact Token.startFrom_of_cuts hcuts _

end NeonAudit
