import Mathlib.Data.List.TakeWhile
import NeonAudit.Document.Decode
import NeonAudit.Proofs.Document.Link
import NeonAudit.Proofs.Token.Spelled

/-!
# Texts that are documents

A text is decoded to a value if its tokens are read as a block of that value, and a line end after
it changes nothing. Tokens that are read as an inline value are a block of their own, since they
start with neither a key nor a dash.
-/

namespace NeonAudit

/-- Nothing, or the end of a line. -/
def isLineEnd (text : List Char) : Bool :=
  text ∈ [[], ['\n'], ['\r', '\n']]

/-- The tokens after a document: nothing, or one line break. -/
inductive EndsDocument : List Token → Prop
  | nil : EndsDocument []
  | lineBreak {token} : token.isLineBreak = true → EndsDocument [token]

/-- The end of a line is cut into pieces of one line break at most. -/
theorem exists_cuts_of_isLineEnd {text : List Char} (h : isLineEnd text = true) :
    Piece.Ends text ∧ ∃ pieces, Piece.Cuts text pieces [] ∧
      ∀ p, EndsDocument (Token.ofPieces p pieces) := by
  simp only [isLineEnd, List.mem_cons, List.not_mem_nil, or_false, decide_eq_true_eq] at h
  rcases h with rfl | rfl | rfl
  · exact ⟨Piece.ends_nil, [], .nil, fun _ => .nil⟩
  · exact ⟨Piece.ends_of_endsLiteral rfl [], _, .single rfl, fun _ => .lineBreak rfl⟩
  · exact ⟨Piece.ends_of_endsLiteral rfl ['\n'], _, .cons rfl (.single rfl),
      fun _ => .lineBreak rfl⟩

/-- What is after a document has no line breaks to be merged. -/
theorem EndsDocument.mergeLineBreaks {tokens : List Token} (h : EndsDocument tokens) :
    Token.mergeLineBreaks tokens = tokens := by
  cases h with
  | nil => rfl
  | lineBreak _ => rw [Token.mergeLineBreaks, List.head?_nil, Option.any_none, Bool.and_false]; rfl

/-- Nothing but line breaks is after a document. -/
theorem EndsDocument.skipLineBreaks {tokens : List Token} (h : EndsDocument tokens) :
    skipLineBreaks tokens = [] := by
  cases h with
  | nil => rfl
  | lineBreak htoken => exact List.dropWhile_cons_of_pos htoken

/-- What is after a document ends a value. -/
theorem EndsDocument.endsValue {tokens : List Token} (h : EndsDocument tokens) :
    EndsValue tokens := by
  cases h with
  | nil => simp [EndsValue]
  | lineBreak htoken =>
    rintro _ ⟨⟩
    exact .inl htoken

/-- The tokens of a text and a line end after it, with the line break before the first line. -/
theorem ofSource_of_spells {text lineEnd : List Char} {pieces pieces' : List Piece}
    (hpieces : Piece.Spells text pieces) (hends : Piece.Ends lineEnd)
    (hcuts : Piece.Cuts lineEnd pieces' [])
    (hafter : EndsDocument (Token.ofPieces (Position.start.after text) pieces')) :
    TokenStream.ofSource (text ++ lineEnd) =
      .ok ⟨⟨.lineBreak [], "\n", .start⟩ :: (Token.ofPieces .start pieces ++
        Token.ofPieces (Position.start.after text) pieces'),
          Position.start.after (text ++ lineEnd)⟩ := by
  obtain ⟨c, rest, rfl, hc⟩ := hpieces.front
  obtain ⟨token, tokens, htokens, htoken, -⟩ := hpieces.starts .start
  have hrun := ((hpieces.cuts hends).append hcuts).ofSource_eq_ok .start
  have htake : (c :: rest ++ lineEnd).takeWhile Piece.isIndentation = [] :=
    List.takeWhile_cons_of_neg (by simp [hc])
  have hdrop : (c :: rest ++ lineEnd).dropWhile Piece.isIndentation = c :: rest ++ lineEnd :=
    List.dropWhile_cons_of_neg (by simp [hc])
  have hmerged := hpieces.merged .start
  rw [htokens] at hmerged
  have hmerge := hmerged.cons htoken ⟨.lineBreak [], "\n", .start⟩
    (Token.ofPieces (Position.start.after (c :: rest)) pieces')
  rw [hafter.mergeLineBreaks, ← htokens] at hmerge
  rw [TokenStream.ofSource, htake, hdrop, Position.after_nil, hrun]
  refine congrArg (fun tokens => Except.ok (TokenStream.mk tokens _)) ?_
  rw [Token.ofPieces, Token.ofPieces_append, hpieces.texts_eq]
  exact hmerge

/-- The tokens at the start of a document are read as a block of the value before the end. -/
def ReadsDocument (value : Value) (p : Position) (tokens : List Token) : Prop :=
  p = .start → ∀ finish {after}, EndsDocument after →
    (block finish maxDepth [] false).run (tokens ++ after) = .ok (value, after)

/-- Tokens after the line break before the first line are read as a block, up to line breaks. -/
theorem Value.ofTokens_lineBreak {tokens : List Token} (h : tokens ≠ []) {lineBreak : Token}
    (hkind : lineBreak.kind = .lineBreak []) (finish : Position) :
    Value.ofTokens ⟨lineBreak :: tokens, finish⟩ =
      match (block finish maxDepth [] false).run tokens with
      | .error failure => .error failure
      | .ok (value, rest) =>
        if (skipLineBreaks rest).isEmpty then .ok value
        else .error (unexpected finish (skipLineBreaks rest)) := by
  rw [Value.ofTokens, splitOpening, hkind]
  exact if_neg (by simpa using h)

/-- A text that spells tokens is decoded to what their block is read as, up to line breaks, with a
line end after it or without one. -/
theorem exists_ofTokens_of_spelled {P : Position → List Token → Prop} {text lineEnd : List Char}
    (h : Spelled text P) (hend : isLineEnd lineEnd = true) :
    ∃ tokens after finish, P .start tokens ∧ EndsDocument after ∧
      decodeChars (text ++ lineEnd) =
        match (block finish maxDepth [] false).run (tokens ++ after) with
        | .error failure => .error failure
        | .ok (value, rest) =>
          if (skipLineBreaks rest).isEmpty then .ok value
          else .error (unexpected finish (skipLineBreaks rest)) := by
  obtain ⟨pieces, hpieces, hP⟩ := h
  obtain ⟨hends, pieces', hcuts, hafter⟩ := exists_cuts_of_isLineEnd hend
  have hafter := hafter (Position.start.after text)
  obtain ⟨token, tokens, htokens, -⟩ := hpieces.starts .start
  refine ⟨_, _, Position.start.after (text ++ lineEnd), hP .start, hafter, ?_⟩
  rw [decodeChars, ofSource_of_spells hpieces hends hcuts hafter]
  exact Value.ofTokens_lineBreak (by simp [htokens]) rfl _

/-- A text whose tokens are read as a block of a value is decoded to it, with a line end after it or
without one. -/
theorem decodeChars_of_spelled {text lineEnd : List Char} {value : Value}
    (h : Spelled text (ReadsDocument value)) (hend : isLineEnd lineEnd = true) :
    decodeChars (text ++ lineEnd) = .ok value := by
  obtain ⟨tokens, after, finish, hread, hafter, hdecode⟩ := exists_ofTokens_of_spelled h hend
  rw [hdecode, hread rfl finish hafter]
  dsimp only
  rw [hafter.skipLineBreaks]
  rfl

/-- A text whose tokens are no block fails as their block does. -/
theorem decodeChars_of_spelled_error {text lineEnd : List Char} {failure : DecodeFailure → Prop}
    (h : Spelled text fun _ tokens => ∀ finish after,
      ∃ cause, (block finish maxDepth [] false).run (tokens ++ after) = .error cause ∧
        failure cause) (hend : isLineEnd lineEnd = true) :
    ∃ cause, decodeChars (text ++ lineEnd) = .error cause ∧ failure cause := by
  obtain ⟨tokens, after, finish, hread, -, hdecode⟩ := exists_ofTokens_of_spelled h hend
  obtain ⟨cause, hrun, hcause⟩ := hread finish after
  rw [hrun] at hdecode
  exact ⟨cause, hdecode, hcause⟩

/-- What is no key before a colon or an equals sign is no key before a colon. -/
theorem splitKey?_colon {tokens : List Token} (h : splitKey? [.colon, .equals] tokens = none) :
    splitKey? [.colon] tokens = none := by
  cases tokens with
  | nil => rfl
  | cons token rest =>
    cases rest with
    | nil => rfl
    | cons separator rest =>
      rw [splitKey?] at h ⊢
      cases hname : token.key? <;> cases hkind : separator.kind <;> simp_all

/-- Tokens that are read as a value are a block of it. -/
theorem Reads.block {depth : Nat} {tokens : List Token} {value : Value}
    (h : Reads depth tokens value) (finish : Position) (indent : List Char) {after : List Token}
    (hafter : EndsValue after) :
    (block finish (depth + 1) indent false).run (tokens ++ after) = .ok (value, after) := by
  have hstart : itemStart? false (tokens ++ after) = none := by
    have hkeyless := splitKey?_colon (h.keyless hafter.unkeyed)
    obtain ⟨token, rest, rfl, htoken⟩ := h.opens
    rw [List.cons_append] at hkeyless ⊢
    rw [itemStart?, if_neg (Token.kind_ne_of_opensValue htoken).2.1, if_neg Bool.false_ne_true,
      hkeyless]
    rfl
  change blockWith finish (inlineValue finish depth) (NeonAudit.block finish depth) indent false
    (tokens ++ after) = .ok (value, after)
  rw [blockWith, hstart]
  exact h.read finish hafter

end NeonAudit
