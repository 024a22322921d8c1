import NeonAudit.Proofs.Document.Cursor.Ensures

/-!
# Turns of loops

A loop reads what its turns lead to: a turn that ends in another one takes at least one token and
leaves to be read what is still missing, and any other turn ends with what the loop reads. So a loop
needs at most one turn more than there are tokens.
-/

namespace NeonAudit.Cursor

variable {α σ : Type} {stream : TokenStream} {short : Prop} {depth : Nat} {tokens : List Token}

/-- The walk ends as reading the tokens does. -/
def Reads (stream : TokenStream) (short : Prop) (depth : Nat) (tokens : List Token) (walk : Walk α)
    (parsed : Parsed α) : Prop :=
  Ensures stream short depth tokens walk (fun result rest => parsed = .ok (result, rest))
    fun failure => parsed = .error failure

/-- More may be needed for turns to suffice. -/
theorem Reads.mono {short' : Prop} {walk : Walk α} {parsed : Parsed α}
    (h : Reads stream short' depth tokens walk parsed) (hshort : short' → short) :
    Reads stream short depth tokens walk parsed :=
  Ensures.mono h hshort (fun _ _ h => h) fun _ h => h

/-- The turn that a loop takes in a state before some tokens is one of reading them: the tokens
after it are fewer and read alike, or are those after the result. -/
def IsTurn (whole : σ → List Token → Parsed α) (state : σ) (tokens : List Token) :
    Turn σ α → List Token → Prop
  | .again next, rest => rest.length < tokens.length ∧ whole next rest = whole state tokens
  | .done result, rest => whole state tokens = .ok (result, rest)

/-- Taking the turn before some tokens is a part of reading them. -/
def Turns (stream : TokenStream) (short : Prop) (depth : Nat) (whole : σ → List Token → Parsed α)
    (turn : σ → Walk (Turn σ α)) (state : σ) (tokens : List Token) : Prop :=
  Ensures stream short depth tokens (turn state) (IsTurn whole state tokens) fun failure =>
    whole state tokens = .error failure

/-- A loop reads what its turns are parts of reading, if there are turns enough. -/
theorem Turns.iterate {whole : σ → List Token → Parsed α} {turn : σ → Walk (Turn σ α)}
    {turns : Nat} {state : σ}
    (hturn : ∀ state left, left.length ≤ tokens.length →
      Turns stream short depth whole turn state left)
    (hshort : turns ≤ tokens.length → short) :
    Reads stream short depth tokens (Cursor.iterate turn turns state) (whole state tokens) := by
  -- A turn that another one follows leaves fewer tokens, so fewer turns suffice for them.
  induction turns generalizing state tokens with
  | zero => exact fun _ _ => .unfinished (hshort (Nat.zero_le _))
  | succ turns ih =>
    refine Ensures.bind (hturn state tokens (Nat.le_refl _)) (fun _ h => h) ?_
    intro result rest hresult
    cases result with
    | again next =>
      obtain ⟨hlength, hwhole⟩ := hresult
      rw [← hwhole]
      exact ih (fun state left hleft => hturn state left (by omega)) fun hturns => hshort (by omega)
    | done result => exact .pure hresult

/-- A turn of skipping line breaks skips one, or ends before a token that is none. -/
theorem turns_skipTurn (skipped : Bool) (tokens : List Token) :
    Turns stream short depth
      (fun skipped tokens =>
        .ok (skipped || tokens.head?.any Token.isLineBreak, skipLineBreaks tokens))
      skipTurn skipped tokens := by
  refine .observe observes_atLineBreak ?_
  cases tokens with
  | nil => exact .pure (by simp [IsTurn, skipLineBreaks])
  | cons token rest =>
    cases hbreak : token.isLineBreak with
    | true =>
      rw [List.head?_cons, Option.any_some, hbreak, if_pos rfl]
      refine .advance (.pure ⟨Nat.lt_succ_self _, ?_⟩)
      simp [skipLineBreaks, hbreak]
    | false =>
      rw [List.head?_cons, Option.any_some, hbreak, if_neg Bool.false_ne_true]
      exact .pure (by simp [IsTurn, skipLineBreaks, hbreak])

/-- Skipping line breaks ends before the first token that is none. -/
theorem Ensures.skip {turns : Nat} {fails : DecodeFailure → Prop}
    (hshort : turns ≤ tokens.length → short) :
    Ensures stream short depth tokens (Cursor.skip turns)
      (fun skipped rest => skipped = tokens.head?.any Token.isLineBreak ∧
        rest = skipLineBreaks tokens) fails := by
  have hreads : Reads stream short depth tokens (iterate skipTurn turns false)
      (.ok (false || tokens.head?.any Token.isLineBreak, skipLineBreaks tokens)) :=
    Turns.iterate (fun skipped left _ => turns_skipTurn skipped left) hshort
  refine Ensures.mono hreads id (fun skipped rest h => ?_) fun failure h => ?_
  · cases h
    exact ⟨rfl, rfl⟩
  · contradiction

end NeonAudit.Cursor
