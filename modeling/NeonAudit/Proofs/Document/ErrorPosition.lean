import NeonAudit.Excerpt
import NeonAudit.Proofs.Document.Blame
import NeonAudit.Proofs.Message
import NeonAudit.Proofs.Place
import NeonAudit.Proofs.Token.Cutting

/-!
# Errors point at their causes

The position of an error is the place behind some text that the source starts with. A fault in a
token is found at its first character, and what the parser blames is a token or the end, so what
follows in the source shows the cause that the message states.
-/

namespace NeonAudit

namespace Token

/-- The position of a token is the place behind some text of the source, and a token that is no line
break is spelled there. -/
theorem exists_of_mem_ofPieces {source : List Char} {pieces : List Piece}
    (h : Piece.Cuts source pieces []) {before : List Char} {token : Token}
    (hmem : token ∈ ofPieces (Position.behind before) pieces) :
    ∃ front after, source = front ++ after ∧
      token.position = Position.behind (before ++ front) ∧
      (token.isLineBreak = false → token.text.toList <+: after) := by
  induction pieces generalizing source before with
  | nil => contradiction
  | cons piece pieces ih =>
    cases h with
    | cons hcut hcuts =>
      rename_i c source remaining
      have htext : c :: source = piece.text ++ remaining := (Piece.append_of_cut hcut).1.symm
      have hrest (hmem : token ∈ ofPieces (Position.behind (before ++ piece.text)) pieces) :
          ∃ front after, c :: source = front ++ after ∧
            token.position = Position.behind (before ++ front) ∧
            (token.isLineBreak = false → token.text.toList <+: after) := by
        obtain ⟨front, after, happend, hposition, hfront⟩ := ih hcuts hmem
        refine ⟨piece.text ++ front, after, ?_, ?_, hfront⟩
        · rw [htext, happend, List.append_assoc]
        · rw [hposition, List.append_assoc]
      rw [ofPieces, Position.behind_after] at hmem
      split at hmem
      · exact hrest hmem
      · exact hrest hmem
      · rcases List.mem_cons.1 hmem with rfl | hmem
        · exact ⟨piece.text, remaining, htext, rfl, fun hbreak => by contradiction⟩
        · exact hrest hmem
      · rcases List.mem_cons.1 hmem with rfl | hmem
        · refine ⟨[], c :: source, rfl, by rw [List.append_nil], fun _ => ?_⟩
          rw [htext, String.toList_ofList]
          exact List.prefix_append _ _
        · exact hrest hmem

/-- Every token of a source stands behind some text of it, and is spelled there unless it is a line
break. -/
theorem exists_of_mem_ofSource {source : List Char} {stream : TokenStream}
    (h : TokenStream.ofSource source = .ok stream) {token : Token} (hmem : token ∈ stream.tokens) :
    ∃ before after, source = before ++ after ∧ token.position = Position.behind before ∧
      (token.isLineBreak = false → token.text.toList <+: after) := by
  obtain ⟨pieces, hpieces, rfl⟩ := Result.of_map_eq_ok h
  have hsource := List.takeWhile_append_dropWhile (p := Piece.isIndentation) (l := source)
  have hcuts := Piece.cuts_of_ofSource hpieces
  replace hmem := (mergeLineBreaks_sublist _).subset hmem
  simp only [ofPieces, Position.start_after] at hmem
  rcases List.mem_cons.1 hmem with rfl | hmem
  · exact ⟨_, _, hsource.symm, rfl, fun hbreak => by contradiction⟩
  · obtain ⟨front, after, happend, hposition, hfront⟩ := exists_of_mem_ofPieces hcuts hmem
    refine ⟨_, after, ?_, hposition, hfront⟩
    rw [List.append_assoc, ← happend, hsource]

end Token

/-- How a cause shows in the source from the position of an error on. -/
def DecodeError.Cause.ShowsAt (source : List Char) (position : Position) (after : List Char) :
    Cause → Prop
  | unexpected text => text.toList <+: after
  | unexpectedEnd => after = []
  | unterminatedString => after.head? ∈ [some '\x27', some '"']
  | invalidEscape _ => after.head? ∈ [some '\x27', some '"']
  | duplicatedKey key =>
    ∃ stream token, TokenStream.ofSource source = .ok stream ∧ token ∈ stream.tokens ∧
      token.position = position ∧ token.key? = some key ∧ token.text.toList <+: after
  | _ => True

/-- A fault in a string is found at its opening quote. -/
theorem Piece.showsAt_of_cutString {quote : Char} {rest : List Char} {cause : DecodeError.Cause}
    (h : cutString quote rest = .error cause) (hquote : quote = '\x27' ∨ quote = '"')
    (source : List Char) (position : Position) :
    cause.ShowsAt source position (quote :: rest) := by
  have hhead : (quote :: rest).head? ∈ [some '\x27', some '"'] := by
    rcases hquote with rfl | rfl <;> simp
  have hresolve {raw : List Char} (h : resolve quote raw = .error cause) :
      cause.ShowsAt source position (quote :: rest) := by
    unfold resolve at h
    split at h
    · cases hraw : Text.unescape raw with
      | ok value =>
        rw [hraw] at h
        contradiction
      | error sequence =>
        rw [hraw] at h
        cases h
        exact hhead
    · contradiction
  unfold cutString at h
  repeat' split at h
  all_goals first
    | (cases h; exact hhead)
    | exact hresolve (Result.of_map_eq_error h)

/-- A fault in a token is found at its first character. -/
theorem Piece.showsAt_of_cut {c : Char} {rest : List Char} {cause : DecodeError.Cause}
    (h : cut c rest = .error cause) (source : List Char) (position : Position) :
    cause.ShowsAt source position (c :: rest) := by
  unfold cut at h
  repeat' split at h
  all_goals try contradiction
  · rename_i hquote
    exact showsAt_of_cutString h (by simpa using hquote) source position
  · cases h
    simp [DecodeError.Cause.ShowsAt]

/-- A fault in the tokens of a source shows where it is reported. -/
theorem showsAt_of_ofSource {source : List Char} {e : DecodeError}
    (h : TokenStream.ofSource source = .error e) :
    ∃ before after, source = before ++ after ∧ e.position = Position.behind before ∧
      e.cause.ShowsAt source e.position after := by
  obtain ⟨pieces, c, rest, hcuts, hfault, hposition⟩ :=
    Piece.cuts_of_ofSource_eq_error (Result.of_map_eq_error h)
  rw [Position.start_after, Position.behind_after] at hposition
  refine ⟨_, c :: rest, ?_, hposition, Piece.showsAt_of_cut hfault source e.position⟩
  rw [List.append_assoc, hcuts.texts_append, List.takeWhile_append_dropWhile]

/-- What the parser blames shows where it is reported. -/
theorem showsAt_of_blames {source : List Char} {stream : TokenStream} {e : DecodeError}
    (hstream : TokenStream.ofSource source = .ok stream)
    (h : Blames stream.finish stream.tokens (.malformed e)) :
    ∃ before after, source = before ++ after ∧ e.position = Position.behind before ∧
      e.cause.ShowsAt source e.position after := by
  have hfinish : stream.finish = Position.behind source := by
    obtain ⟨pieces, -, rfl⟩ := Result.of_map_eq_ok hstream
    exact Position.start_after source
  cases h with
  | unexpectedEnd => exact ⟨source, [], (List.append_nil source).symm, hfinish, rfl⟩
  | unexpected hmem hbreak =>
    obtain ⟨before, after, happend, hposition, hfront⟩ := Token.exists_of_mem_ofSource hstream hmem
    exact ⟨before, after, happend, hposition, hfront hbreak⟩
  | lineEnd hmem =>
    obtain ⟨before, after, happend, hposition, -⟩ := Token.exists_of_mem_ofSource hstream hmem
    exact ⟨before, after, happend, hposition, trivial⟩
  | duplicated hmem hkey =>
    rename_i token key
    obtain ⟨before, after, happend, hposition, hfront⟩ := Token.exists_of_mem_ofSource hstream hmem
    have hbreak : token.isLineBreak = false := by
      rw [Token.key?] at hkey
      rw [Token.isLineBreak]
      split at hkey <;> first | contradiction | simp [*]
    exact ⟨before, after, happend, hposition, stream, token, hstream, hmem, rfl, hkey,
      hfront hbreak⟩
  | indentation hmem hcause =>
    obtain ⟨before, after, happend, hposition, -⟩ := Token.exists_of_mem_ofSource hstream hmem
    refine ⟨before, after, happend, hposition, ?_⟩
    simp only [List.mem_cons, List.not_mem_nil, or_false] at hcause
    rcases hcause with rfl | rfl <;> trivial
  | tooDeep hmem =>
    obtain ⟨before, after, happend, hposition, -⟩ := Token.exists_of_mem_ofSource hstream hmem
    exact ⟨before, after, happend, hposition, trivial⟩
  | tooDeepAtEnd => exact ⟨source, [], (List.append_nil source).symm, hfinish, trivial⟩

/-- The error that decoding ends in shows where it is reported. -/
theorem exists_showsAt_of_decode {source : String} {e : DecodeError}
    (h : decode source = .error (.malformed e)) :
    ∃ before after, source.toList = before ++ after ∧ e.position = Position.behind before ∧
      e.cause.ShowsAt source.toList e.position after := by
  rw [decode, decodeChars] at h
  split at h
  · rename_i e' hstream
    cases h
    exact showsAt_of_ofSource hstream
  · rename_i stream hstream
    exact showsAt_of_blames hstream (blames_of_ofTokens h)

/-- The excerpt around a line that exists is not empty. -/
theorem Excerpt.around_ne_nil {source : List Char} {target : Nat} (hpos : 1 ≤ target)
    (hle : target ≤ (Text.split '\n' source).length) : around source target ≠ [] := by
  have hlines : (Text.lines source).length = (Text.split '\n' source).length :=
    List.length_map _
  have hshown : ((Text.lines source).drop (max 1 (target - context) - 1)).take
      (min (Text.lines source).length (target + context) + 1 - max 1 (target - context)) ≠ [] := by
    rw [Ne, ← List.length_eq_zero_iff, List.length_take, List.length_drop, hlines]
    omega
  obtain ⟨line, more, hmore⟩ := List.exists_cons_of_ne_nil hshown
  rw [around, if_neg (by simp; omega)]
  dsimp only
  rw [hmore]
  simp [numberedText, lineText]

/-- An error points into a source: to a line that there is and to a column on it or just behind it,
and whatever cause its message states shows in the source from there on. -/
structure DecodeError.PointsInto (e : DecodeError) (source : List Char) : Prop where
  /-- There is a line of that number and it reaches at least to the column before. -/
  line_column : 1 ≤ e.position.line ∧ 1 ≤ e.position.column ∧
    ∃ line, (Text.split '\n' source)[e.position.line - 1]? = some line ∧
      e.position.column ≤ line.length + 1
  /-- The excerpt shown with the error is not empty. -/
  excerpt : Excerpt.around source e.position.line ≠ []
  /-- The text from the position on shows the cause. -/
  shows : ∃ before after, source = before ++ after ∧ e.position = Position.behind before ∧
    ∀ cause : Cause, e.cause.text = cause.text → cause.ShowsAt source e.position after

/-- Whatever error decoding ends in points into the source at its cause. -/
theorem pointsInto_of_decode {source : String} {e : DecodeError}
    (h : decode source = .error (.malformed e)) : e.PointsInto source.toList := by
  obtain ⟨before, after, happend, hposition, hshows⟩ := exists_showsAt_of_decode h
  have hline : e.position.line - 1 = before.count '\n' := by
    rw [hposition, Position.behind, Nat.add_sub_cancel_left]
  have hnumber : e.position.line ≤ (Text.split '\n' source.toList).length := by
    rw [Text.length_split, happend, List.count_append]
    omega
  have hpos : 1 ≤ e.position.line := by
    rw [hposition]
    exact Nat.le_add_right 1 _
  exact {
    line_column := by
      refine ⟨hpos, ?_, Text.lastLine before ++ after.takeWhile (· ≠ '\n'), ?_, ?_⟩
      · rw [hposition]
        exact Nat.le_add_right 1 _
      · rw [hline, happend, Text.getElem?_split]
      · rw [hposition, Position.behind, List.length_append]
        dsimp only
        omega
    excerpt := Excerpt.around_ne_nil hpos hnumber
    shows := ⟨before, after, happend, hposition, fun cause hcause =>
      DecodeError.Cause.text_injective hcause ▸ hshows⟩ }

/-- The error for a key that stands a second time, below an empty line, points into the source. -/
theorem pointsInto_of_decode_duplicated :
    DecodeError.PointsInto ⟨.duplicatedKey "a", ⟨4, 1⟩⟩ "a: 1\nb: [2]\n\na: 3".toList :=
  pointsInto_of_decode (Result.of_map_eq_error (f := fun _ => ()) (by decide +kernel))

end NeonAudit
