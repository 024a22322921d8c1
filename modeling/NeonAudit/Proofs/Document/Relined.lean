import NeonAudit.Proofs.Document.Shift
import NeonAudit.Proofs.Token.Relined
import NeonAudit.Proofs.Token.Vacant

/-!
# The tokens of a relined source

A source and the same source relined are read side by side, a piece at a time. As long as their next
pieces are cut alike, both end in the same fault or in the same tokens, which stand further to the
right by the indentation. After a comment the two are on different columns, if a carriage return is
part of one of them; but then their lines end, and behind a line feed only the line matters.
-/

namespace NeonAudit

open Text (Relined)

/-- Moving places to the right of an indentation that is put before every line. -/
def Shift.right (indent : List Char) : Shift where
  place := Position.right indent.length
  indent := indent
  spell := id
  column_place _ := rfl

variable {indent : List Char} {Alike : List Char → List Char → Prop}

/-- The second token is the first one in a relined source: it stands further to the right, a line
break has a longer indentation, and the spellings are alike. -/
structure Token.Relined (indent : List Char) (Alike : List Char → List Char → Prop)
    (token other : Token) : Prop where
  /-- The tokens are of one kind. -/
  kind : other.kind = (Shift.right indent).kind token.kind
  /-- The tokens are spelled alike. -/
  text : Alike token.text.toList other.text.toList
  /-- The second token stands further to the right. -/
  position : other.position = token.position.right indent.length

/-- The same tokens of a relined source are line breaks. -/
theorem Token.Relined.isLineBreak {token other : Token}
    (h : Token.Relined indent Alike token other) : other.isLineBreak = token.isLineBreak := by
  rw [Token.isLineBreak, Token.isLineBreak, h.kind]
  cases token.kind <;> rfl

/-- Line breaks are merged alike in a relined source. -/
theorem Token.forall₂_mergeLineBreaks {tokens others : List Token}
    (h : List.Forall₂ (Token.Relined indent Alike) tokens others) :
    List.Forall₂ (Token.Relined indent Alike) (mergeLineBreaks tokens)
      (mergeLineBreaks others) := by
  induction h with
  | nil => exact .nil
  | cons htoken htokens ih =>
    have hhead {tokens others : List Token}
        (h : List.Forall₂ (Token.Relined indent Alike) tokens others) :
        others.head?.any Token.isLineBreak = tokens.head?.any Token.isLineBreak := by
      cases h with
      | nil => rfl
      | cons htoken _ => exact htoken.isLineBreak
    rw [mergeLineBreaks, mergeLineBreaks, htoken.isLineBreak, hhead htokens]
    split
    · exact ih
    · exact .cons htoken ih

namespace Piece

/-- Two runs from the given places end alike: in the same fault further to the right, or in pieces
of the same tokens. -/
inductive RunsAlike (indent : List Char) (Alike : List Char → List Char → Prop) (p q : Position) :
    Except DecodeError (List Piece) → Except DecodeError (List Piece) → Prop
  | fault {e} : RunsAlike indent Alike p q (.error e)
      (.error ⟨e.cause, e.position.right indent.length⟩)
  | run {pieces pieces'} : List.Forall₂ (Token.Relined indent Alike) (Token.ofPieces p pieces)
      (Token.ofPieces q pieces') → RunsAlike indent Alike p q (.ok pieces) (.ok pieces')

variable {p q : Position} {result result' : Except DecodeError (List Piece)}

/-- Runs stay alike with pieces of the same tokens before them. -/
theorem RunsAlike.cons {piece piece' : Piece}
    (h : RunsAlike indent Alike (p.after piece.text) (q.after piece'.text) result result')
    (htokens : List.Forall₂ (Token.Relined indent Alike) (Token.ofPieces p [piece])
      (Token.ofPieces q [piece'])) :
    RunsAlike indent Alike p q (result.map (piece :: ·)) (result'.map (piece' :: ·)) := by
  cases h with
  | fault => exact .fault
  | @run pieces pieces' h =>
    have hsplit (p : Position) (piece : Piece) (pieces : List Piece) :
        Token.ofPieces p (piece :: pieces) =
          Token.ofPieces p [piece] ++ Token.ofPieces (p.after piece.text) pieces := by
      have happend := Token.ofPieces_append p [piece] pieces
      rwa [texts_cons, texts_nil, List.append_nil] at happend
    refine .run ?_
    rw [hsplit p, hsplit q]
    exact List.rel_append htokens h

/-- Runs stay alike with a carriage return before the second one. -/
theorem RunsAlike.cons_return (h : RunsAlike indent Alike p (q.next '\r') result result') :
    RunsAlike indent Alike p q result (result'.map (⟨.blank, ['\r']⟩ :: ·)) := by
  cases h with
  | fault => exact .fault
  | run h => exact .run h

/-- Runs over a source and over it relined are alike where the second one starts further to the
right, and on any column of the line where the line ends. -/
def RunsAlikeFrom (indent : List Char) (Alike : List Char → List Char → Prop) (p : Position)
    (source : List Char) : Prop :=
  ∀ other q, Relined indent source other → q.line = p.line →
    (q = p.right indent.length ∨ source.head? = some '\n') →
      RunsAlike indent Alike p q (ofSource p source) (ofSource q other)

/-- Runs are alike where the second one starts further to the right. -/
theorem RunsAlikeFrom.right {source other : List Char} (hrun : RunsAlikeFrom indent Alike p source)
    (h : Relined indent source other) :
    RunsAlike indent Alike p (p.right indent.length) (ofSource p source)
      (ofSource (p.right indent.length) other) :=
  hrun other (p.right indent.length) h rfl (.inl rfl)

/-- A run over a line feed is alike where it starts on the same line. -/
theorem RunsAlikeFrom.lineFeed (hindent : ∀ c ∈ indent, isIndentation c = true)
    (hbreak : Alike "\n".toList "\n".toList) {rest rest' : List Char}
    (hrun : RunsAlikeFrom indent Alike (p.after (ofLineBreak rest).text)
      (rest.dropWhile isIndentation))
    (h : Relined indent rest rest') (hline : q.line = p.line) :
    RunsAlike indent Alike p q (ofSource p ('\n' :: rest))
      (ofSource q ('\n' :: (indent ++ rest'))) := by
  have htake : (indent ++ rest').takeWhile isIndentation =
      indent ++ rest.takeWhile isIndentation := by
    rw [List.takeWhile_append_of_pos hindent, h.takeWhile_isIndentation]
  have hcut (source : List Char) : cut '\n' source =
      .ok (ofLineBreak source, source.dropWhile isIndentation) := rfl
  have hplace : q.after (ofLineBreak (indent ++ rest')).text =
      (p.after (ofLineBreak rest).text).right indent.length := by
    have hnotMem {text : List Char} (h : ∀ c ∈ text, isIndentation c = true) : '\n' ∉ text :=
      fun hmem => absurd (h _ hmem) (by decide)
    have hfront : ∀ c ∈ rest.takeWhile isIndentation, isIndentation c = true :=
      fun c hc => List.mem_takeWhile_imp hc
    have hboth : ∀ c ∈ indent ++ rest.takeWhile isIndentation, isIndentation c = true :=
      List.forall_mem_append.2 ⟨hindent, hfront⟩
    rw [ofLineBreak, htake, ofLineBreak, Position.after_cons, Position.after_cons,
      Position.after_of_notMem (hnotMem hboth), Position.after_of_notMem (hnotMem hfront),
      Position.next, if_pos rfl, Position.next, if_pos rfl, Position.right, hline,
      List.length_append, Nat.add_comm indent.length, ← Nat.add_assoc]
  have hrest := hrun.right h.dropWhile_isIndentation
  rw [ofSource_cons, ofSource_cons, hcut, hcut, List.dropWhile_append_of_pos hindent]
  dsimp only
  rw [← hplace] at hrest
  exact hrest.cons (.cons ⟨congrArg Token.Kind.lineBreak htake, hbreak, hplace⟩ .nil)

/-- A run over a line end is alike, with a carriage return before the line feed or without one. -/
theorem RunsAlikeFrom.lineEnd (hindent : ∀ c ∈ indent, isIndentation c = true)
    (hbreak : Alike "\n".toList "\n".toList) {rest : List Char}
    (hrun : RunsAlikeFrom indent Alike (p.after (ofLineBreak rest).text)
      (rest.dropWhile isIndentation)) :
    RunsAlikeFrom indent Alike p ('\n' :: rest) := by
  intro other q h hline _
  obtain ⟨rest', hrest, rfl | rfl⟩ := h.of_lineFeed
  · exact hrun.lineFeed hindent hbreak hrest hline
  · have hreturn (source : List Char) : cut '\r' source = .ok (⟨.blank, ['\r']⟩, source) := rfl
    have hline' : (q.next '\r').line = p.line := hline
    rw [ofSource_cons q '\r', hreturn]
    exact (hrun.lineFeed hindent hbreak hrest hline').cons_return

/-- Runs that cut off their next pieces alike are alike, if they are where these end. -/
theorem RunsAlikeFrom.of_cutsAlike (hindent : '\n' ∉ indent) {piece : Piece}
    {remaining rest' : List Char} {c : Char}
    (hrun : RunsAlikeFrom indent Alike (p.after piece.text) remaining)
    (hcuts : CutsAlike indent Alike (.ok (piece, remaining)) (cut c rest')) :
    RunsAlike indent Alike p (p.right indent.length)
      ((ofSource (p.after piece.text) remaining).map (piece :: ·))
      (ofSource (p.right indent.length) (c :: rest')) := by
  rw [ofSource_cons]
  generalize cut c rest' = result at hcuts
  cases hcuts with
  | @lexeme kind spelled _ _ _ hkind halike hspelled hremaining =>
    have hrest := hrun.right hremaining
    dsimp only at hrest
    rw [← hspelled.after hindent] at hrest
    refine hrest.cons (.cons ⟨?_, ?_, rfl⟩ .nil)
    · cases kind <;> first | rfl | exact absurd rfl (hkind _)
    · rwa [String.toList_ofList, String.toList_ofList]
  | @gap kind spelled _ _ hkind hspelled hremaining =>
    have hrest := hrun.right hremaining
    dsimp only at hrest
    rw [← (Relined.of_notMem hspelled).after hindent] at hrest
    refine hrest.cons ?_
    simp only [List.mem_cons, List.not_mem_nil, or_false] at hkind
    rcases hkind with rfl | rfl <;> exact .nil
  | @comment spelled _ _ hspelled hremaining =>
    -- The columns differ by the carriage return, but a line feed follows.
    have hlines (spelled : List Char) (hspelled : '\n' ∉ spelled) (p : Position) :
        (p.after spelled).line = p.line := by
      rw [Position.after_of_notMem hspelled]
    have hreturn : '\n' ∉ spelled ++ ['\r'] := by simpa using hspelled
    have hline := (hlines _ hreturn (p.right indent.length)).trans (hlines _ hspelled p).symm
    exact (hrun _ _ (.lineFeed hremaining) hline (.inr rfl)).cons .nil

/-- A source and the same source relined are run over alike if what starts within their lines is cut
alike. -/
theorem ofSource_relined (hindent : ∀ c ∈ indent, isIndentation c = true)
    (hbreak : Alike "\n".toList "\n".toList) {source : List Char}
    (hcut : ∀ {c rest rest'}, c :: rest <:+ source → c ≠ '\n' → Relined indent rest rest' →
      CutsAlike indent Alike (cut c rest) (cut c rest')) :
    RunsAlikeFrom indent Alike p source := by
  have hright {p q : Position} {c : Char} {rest : List Char} (hc : c ≠ '\n')
      (hplace : q = p.right indent.length ∨ (c :: rest).head? = some '\n') :
      q = p.right indent.length :=
    hplace.resolve_right fun hhead => hc (Option.some.inj hhead)
  fun_induction ofSource p source with
  | case1 p =>
    intro other q h _ _
    cases h
    rw [ofSource, ofSource]
    exact .run .nil
  | case2 p c rest cause hfault =>
    intro other q h _ hplace
    have hc : c ≠ '\n' := by
      rintro rfl
      cases hfault
    obtain ⟨rest', rfl, hrest⟩ := h.of_cons hc
    have hcuts := hcut List.suffix_rfl hc hrest
    rw [hfault] at hcuts
    rw [ofSource_cons, hfault, ofSource_cons, hright hc hplace]
    generalize cut c rest' = result at hcuts
    cases hcuts
    exact .fault
  | case3 p c rest piece remaining hpiece _ ih =>
    have hsuffix : remaining <:+ c :: rest := ⟨piece.text, (append_of_cut hpiece).1⟩
    have hrun := ih fun htail => hcut (htail.trans hsuffix)
    by_cases hc : c = '\n'
    · subst hc
      cases hpiece
      exact hrun.lineEnd hindent hbreak
    · intro other q h _ hplace
      obtain ⟨rest', rfl, hrest⟩ := h.of_cons hc
      have hcuts := hcut List.suffix_rfl hc hrest
      rw [hpiece] at hcuts
      rw [ofSource_cons, hpiece, hright hc hplace]
      exact hrun.of_cutsAlike (fun hmem => absurd (hindent _ hmem) (by decide)) hcuts

end Piece

/-- A source and the same source relined, with the indentation before its first line too, have the
same fault further to the right, or the same tokens in a relined source, if what starts within their
lines is cut alike. -/
theorem TokenStream.ofSource_relined (hindent : ∀ c ∈ indent, Piece.isIndentation c = true)
    (hbreak : Alike "\n".toList "\n".toList) {source other : List Char}
    (hcut : ∀ {c rest rest'}, c :: rest <:+ source → c ≠ '\n' → Relined indent rest rest' →
      Piece.CutsAlike indent Alike (Piece.cut c rest) (Piece.cut c rest'))
    (h : Relined indent source other) :
    (∃ e, ofSource source = .error e ∧
      ofSource (indent ++ other) = .error ⟨e.cause, e.position.right indent.length⟩) ∨
    ∃ stream stream', ofSource source = .ok stream ∧ ofSource (indent ++ other) = .ok stream' ∧
      List.Forall₂ (Token.Relined indent Alike) stream.tokens stream'.tokens ∧
        stream'.finish = stream.finish.right indent.length := by
  have hnotMem : '\n' ∉ indent := fun hmem => absurd (hindent _ hmem) (by decide)
  have htake : (indent ++ other).takeWhile Piece.isIndentation =
      indent ++ source.takeWhile Piece.isIndentation := by
    rw [List.takeWhile_append_of_pos hindent, h.takeWhile_isIndentation]
  have hstart : Position.start.after indent = Position.start.right indent.length :=
    Position.after_of_notMem hnotMem _
  have hplace : Position.start.after (indent ++ source.takeWhile Piece.isIndentation) =
      (Position.start.after (source.takeWhile Piece.isIndentation)).right indent.length := by
    have hfront := Piece.notMem_takeWhile_isIndentation source
    rw [Position.after_append, hstart, (Relined.of_notMem hfront).after hnotMem]
  have hfinish : Position.start.after (indent ++ other) =
      (Position.start.after source).right indent.length := by
    rw [Position.after_append, hstart, h.after hnotMem]
  have hrun := (Piece.ofSource_relined hindent hbreak
    (p := Position.start.after (source.takeWhile Piece.isIndentation))
    fun hsuffix => hcut (hsuffix.trans (List.dropWhile_suffix _))).right h.dropWhile_isIndentation
  rw [ofSource, ofSource, htake, List.dropWhile_append_of_pos hindent, hplace, hfinish]
  generalize Piece.ofSource _ (source.dropWhile Piece.isIndentation) = result at hrun ⊢
  generalize Piece.ofSource _ (other.dropWhile Piece.isIndentation) = result' at hrun ⊢
  cases hrun with
  | fault => exact .inl ⟨_, rfl, rfl⟩
  | run htokens =>
    refine .inr ⟨_, _, rfl, rfl, Token.forall₂_mergeLineBreaks ?_, rfl⟩
    rw [Token.ofPieces, Token.ofPieces, hplace]
    exact .cons ⟨rfl, hbreak, rfl⟩ htokens

end NeonAudit
