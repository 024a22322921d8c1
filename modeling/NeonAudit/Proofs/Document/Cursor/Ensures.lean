import NeonAudit.Document.Cursor

/-!
# What walks ensure

A cursor is before the tokens that are not behind it. A walk that starts there is described by what
its result has to do with the tokens that the cursor ends before, and by the failures it may have;
that the cursor stays among the tokens, that the collections that were open are the ones still open,
and that no halt but a failure occurs, is part of every such description. The only other thing that
may happen is that the turns do not suffice, under a condition that is named.
-/

namespace NeonAudit.Cursor

variable {α β : Type} {stream : TokenStream} {short : Prop} {depth : Nat} {tokens : List Token}

/-- The cursor is before the given tokens, inside so many collections. -/
structure IsBefore (stream : TokenStream) (depth : Nat) (tokens : List Token) (cursor : Cursor) :
    Prop where
  /-- It is not past the end. -/
  pos_le : cursor.pos ≤ stream.tokens.length
  /-- The tokens are those that are not behind it. -/
  drop_eq : stream.tokens.drop cursor.pos = tokens
  /-- So many collections are open. -/
  depth_eq : cursor.depth = depth

/-- What a walk may result in, by what has to hold of a result with the tokens after it and of a
failure. -/
inductive Fits (stream : TokenStream) (short : Prop) (depth : Nat) (ok : α → List Token → Prop)
    (fails : DecodeFailure → Prop) : Except Halt (α × Cursor) → Prop
  | ok {result rest cursor} : IsBefore stream depth rest cursor → ok result rest →
      Fits stream short depth ok fails (.ok (result, cursor))
  | failed {failure} : fails failure → Fits stream short depth ok fails (.error (.failed failure))
  | unfinished : short → Fits stream short depth ok fails (.error .unfinished)

/-- Wherever the walk starts before the given tokens, it results in what fits. -/
def Ensures (stream : TokenStream) (short : Prop) (depth : Nat) (tokens : List Token)
    (walk : Walk α) (ok : α → List Token → Prop) (fails : DecodeFailure → Prop) : Prop :=
  ∀ cursor, IsBefore stream depth tokens cursor →
    Fits stream short depth ok fails (walk.runFrom stream cursor)

/-- Before the given tokens, the walk moves no cursor and results in what is given. -/
def Observes (stream : TokenStream) (tokens : List Token) (walk : Walk α) (result : α) : Prop :=
  ∀ depth cursor, IsBefore stream depth tokens cursor →
    walk.runFrom stream cursor = .ok (result, cursor)

section Rules

variable {ok : α → List Token → Prop} {fails : DecodeFailure → Prop}

/-- A walk goes on from where another one ends. -/
theorem runFrom_bind (walk : Walk α) (next : α → Walk β) (cursor : Cursor) :
    (walk >>= next).runFrom stream cursor =
      match walk.runFrom stream cursor with
      | .error halt => .error halt
      | .ok (result, cursor) => (next result).runFrom stream cursor := by
  change (walk.runFrom stream cursor >>= fun (result, cursor) =>
    (next result).runFrom stream cursor) = _
  cases walk.runFrom stream cursor <;> rfl

theorem Ensures.pure {result : α} (h : ok result tokens) :
    Ensures stream short depth tokens (Pure.pure result) ok fails :=
  fun _ hcursor => .ok hcursor h

theorem Ensures.failed {failure : DecodeFailure} (h : fails failure) :
    Ensures stream short depth tokens (throw (.failed failure)) ok fails :=
  fun _ _ => .failed h

theorem Ensures.bind {walk : Walk β} {next : β → Walk α} {mid : β → List Token → Prop}
    {fails' : DecodeFailure → Prop} (hwalk : Ensures stream short depth tokens walk mid fails')
    (hfails : ∀ failure, fails' failure → fails failure)
    (hnext : ∀ result rest, mid result rest →
      Ensures stream short depth rest (next result) ok fails) :
    Ensures stream short depth tokens (walk >>= next) ok fails := by
  intro cursor hcursor
  rw [runFrom_bind]
  have hfits := hwalk cursor hcursor
  generalize walk.runFrom stream cursor = outcome at hfits
  cases hfits with
  | ok hrest hmid => exact hnext _ _ hmid _ hrest
  | failed hfailure => exact .failed (hfails _ hfailure)
  | unfinished hshort => exact .unfinished hshort

/-- What a walk ensures can be weakened. -/
theorem Ensures.mono {walk : Walk α} {short' : Prop} {ok' : α → List Token → Prop}
    {fails' : DecodeFailure → Prop} (h : Ensures stream short' depth tokens walk ok' fails')
    (hshort : short' → short) (hok : ∀ result rest, ok' result rest → ok result rest)
    (hfails : ∀ failure, fails' failure → fails failure) :
    Ensures stream short depth tokens walk ok fails := by
  intro cursor hcursor
  have hfits := h cursor hcursor
  generalize walk.runFrom stream cursor = outcome at hfits ⊢
  cases hfits with
  | ok hrest hresult => exact .ok hrest (hok _ _ hresult)
  | failed hfailure => exact .failed (hfails _ hfailure)
  | unfinished hfuel => exact .unfinished (hshort hfuel)

theorem Observes.pure (result : α) : Observes stream tokens (Pure.pure result) result :=
  fun _ _ _ => rfl

theorem Observes.bind {walk : Walk β} {next : β → Walk α} {first : β} {result : α}
    (hwalk : Observes stream tokens walk first) (hnext : Observes stream tokens (next first) result) :
    Observes stream tokens (walk >>= next) result := by
  intro depth cursor hcursor
  rw [runFrom_bind, hwalk depth cursor hcursor]
  exact hnext depth cursor hcursor

/-- After looking, a walk goes on with what was seen. -/
theorem Ensures.observe {walk : Walk β} {next : β → Walk α} {seen : β}
    (hwalk : Observes stream tokens walk seen)
    (hnext : Ensures stream short depth tokens (next seen) ok fails) :
    Ensures stream short depth tokens (walk >>= next) ok fails := by
  intro cursor hcursor
  rw [runFrom_bind, hwalk depth cursor hcursor]
  exact hnext cursor hcursor

end Rules

section Tokens

variable {token : Token} {rest : List Token} {cursor : Cursor}

/-- The token at the cursor is the first of those it is before. -/
theorem IsBefore.getElem?_pos (h : IsBefore stream depth tokens cursor) :
    stream.tokens[cursor.pos]? = tokens.head? := by
  rw [← h.drop_eq, List.head?_drop]

/-- The token after it is the second one. -/
theorem IsBefore.getElem?_succ (h : IsBefore stream depth tokens cursor) :
    stream.tokens[cursor.pos + 1]? = tokens.tail.head? := by
  rw [← h.drop_eq, List.tail_drop, List.head?_drop]

/-- Behind the first token the cursor is before the others. -/
theorem IsBefore.succ (h : IsBefore stream depth (token :: rest) cursor) :
    IsBefore stream depth rest ⟨cursor.pos + 1, cursor.depth⟩ where
  pos_le := by
    have hlength := congrArg List.length h.drop_eq
    rw [List.length_drop, List.length_cons] at hlength
    dsimp only
    omega
  drop_eq := by rw [← List.tail_drop, h.drop_eq, List.tail_cons]
  depth_eq := h.depth_eq

/-- How many tokens are not behind the cursor. -/
theorem IsBefore.length_eq (h : IsBefore stream depth tokens cursor) :
    cursor.pos + tokens.length = stream.tokens.length := by
  have hlength := congrArg List.length h.drop_eq
  have := h.pos_le
  rw [List.length_drop] at hlength
  omega

theorem observes_read : Observes stream tokens read stream :=
  fun _ _ _ => rfl

theorem observes_peek : Observes stream tokens peek tokens.head? := by
  intro depth cursor hcursor
  change (if cursor.pos ≤ stream.tokens.length then pure stream.tokens[cursor.pos]?
    else throw .outside : Walk (Option Token)).runFrom stream cursor = _
  rw [if_pos hcursor.pos_le, hcursor.getElem?_pos]
  rfl

theorem observes_peekNext : Observes stream tokens peekNext tokens.tail.head? := by
  intro depth cursor hcursor
  change Except.ok (stream.tokens[cursor.pos + 1]?, cursor) = _
  rw [hcursor.getElem?_succ]

theorem observes_position :
    Observes stream tokens position (headPosition stream.finish tokens) := by
  refine .bind observes_read (.bind observes_peek ?_)
  cases tokens <;> exact .pure _

theorem observes_atEnd : Observes stream tokens atEnd tokens.isEmpty := by
  refine .bind observes_peek ?_
  cases tokens <;> exact .pure _

theorem observes_atMark (mark : Mark) :
    Observes stream tokens (atMark mark) (startsWithMark mark tokens) := by
  refine .bind observes_peek ?_
  cases tokens <;> exact .pure _

theorem observes_beforeMark (mark : Mark) :
    Observes stream tokens (beforeMark mark) (startsWithMark mark tokens.tail) := by
  refine .bind observes_peekNext ?_
  cases tokens.tail <;> exact .pure _

theorem observes_beforeEnd : Observes stream tokens beforeEnd tokens.tail.isEmpty := by
  refine .bind observes_peekNext ?_
  cases tokens.tail <;> exact .pure _

/-- The indentation of the line break at the front. -/
def frontIndent? (tokens : List Token) : Option (List Char) :=
  tokens.head?.bind fun token =>
    match token.kind with
    | .lineBreak indent => some indent
    | _ => none

theorem observes_lineIndent? : Observes stream tokens lineIndent? (frontIndent? tokens) :=
  .bind observes_peek (.pure _)

theorem observes_atLineBreak :
    Observes stream tokens atLineBreak (tokens.head?.any Token.isLineBreak) := by
  refine .bind observes_lineIndent? ?_
  have hsome : (frontIndent? tokens).isSome = tokens.head?.any Token.isLineBreak := by
    cases tokens with
    | nil => rfl
    | cons token rest =>
      simp only [frontIndent?, List.head?_cons, Option.bind_some, Option.any_some,
        Token.isLineBreak]
      cases token.kind <;> rfl
  exact hsome ▸ .pure _

/-- There is a key at the front exactly if it can be split off. -/
theorem isSome_splitKey? (separators : List Mark) (tokens : List Token) :
    (splitKey? separators tokens).isSome =
      (tokens.head?.any (fun token => token.key?.isSome) &&
        tokens.tail.head?.any fun token => separators.any fun mark => token.kind = .mark mark) := by
  match tokens with
  | [] => rfl
  | [token] => simp [splitKey?]
  | token :: separator :: rest =>
    simp only [splitKey?, List.head?_cons, List.tail_cons, Option.any_some]
    cases token.key? with
    | none => rfl
    | some name =>
      cases separator.kind with
      | mark mark =>
        by_cases hmark : mark ∈ separators
        · simp [hmark]
        · simp [hmark]
          grind
      | _ => simp

theorem observes_atKey (separators : List Mark) :
    Observes stream tokens (atKey separators) (splitKey? separators tokens).isSome := by
  rw [isSome_splitKey?]
  exact .bind observes_peek (.bind observes_peekNext (.pure _))

end Tokens

section Moves

variable {ok : α → List Token → Prop} {fails : DecodeFailure → Prop} {token : Token}
  {rest : List Token}

/-- The cursor moves behind the token it is at. -/
theorem Ensures.advance {next : Option Token → Walk α}
    (h : Ensures stream short depth rest (next (some token)) ok fails) :
    Ensures stream short depth (token :: rest) (Cursor.advance >>= next) ok fails := by
  intro cursor hcursor
  have hrun : Cursor.advance.runFrom stream cursor =
      .ok (some token, ⟨cursor.pos + 1, cursor.depth⟩) := by
    rw [Cursor.advance, runFrom_bind, observes_peek depth cursor hcursor]
    rfl
  rw [runFrom_bind, hrun]
  exact h _ hcursor.succ

/-- At the end the cursor stays where it is. -/
theorem Ensures.advance_nil {next : Option Token → Walk α}
    (h : Ensures stream short depth [] (next none) ok fails) :
    Ensures stream short depth [] (Cursor.advance >>= next) ok fails := by
  intro cursor hcursor
  have hrun : Cursor.advance.runFrom stream cursor = .ok (none, cursor) := by
    rw [Cursor.advance, runFrom_bind, observes_peek depth cursor hcursor]
    rfl
  rw [runFrom_bind, hrun]
  exact h cursor hcursor

/-- A failure is that at the first token. -/
theorem runFrom_fail {cursor : Cursor} (hcursor : IsBefore stream depth tokens cursor)
    (cause : DecodeError.Cause) :
    (Cursor.fail cause : Walk α).runFrom stream cursor =
      .error (.failed (.at (headPosition stream.finish tokens) cause)) := by
  rw [Cursor.fail, runFrom_bind, observes_position depth cursor hcursor]
  rfl

theorem Ensures.fail {cause : DecodeError.Cause}
    (h : fails (.at (headPosition stream.finish tokens) cause)) :
    Ensures stream short depth tokens (Cursor.fail cause) ok fails := by
  intro cursor hcursor
  rw [runFrom_fail hcursor]
  exact .failed h

theorem Ensures.unexpectedToken (h : fails (unexpected stream.finish tokens)) :
    Ensures stream short depth tokens Cursor.unexpectedToken ok fails := by
  refine .observe observes_read (.observe observes_peek (.failed ?_))
  cases tokens with
  | nil => exact h
  | cons token rest => exact h

theorem Ensures.ofResult {result : Except DecodeFailure α}
    (hok : ∀ a, result = .ok a → ok a tokens) (hfails : ∀ f, result = .error f → fails f) :
    Ensures stream short depth tokens (Cursor.ofResult result) ok fails := by
  cases result with
  | error failure => exact .failed (hfails failure rfl)
  | ok a => exact .pure (hok a rfl)

/-- A walk goes on with a result, unless it fails. -/
theorem Ensures.ofResult_bind {β : Type} {result : Except DecodeFailure β} {next : β → Walk α}
    (hok : ∀ b, result = .ok b → Ensures stream short depth tokens (next b) ok fails)
    (hfails : ∀ f, result = .error f → fails f) :
    Ensures stream short depth tokens (Cursor.ofResult result >>= next) ok fails := by
  cases result with
  | error failure => exact .failed (hfails failure rfl)
  | ok b => exact hok b rfl

/-- A key and its separator are taken where they can be split off. -/
theorem Ensures.takeKey {separators : List Mark} {key : Key}
    (h : splitKey? separators tokens = some (key, rest)) :
    Ensures stream short depth tokens Cursor.takeKey (fun found after => found = key ∧ after = rest)
      fails := by
  unfold splitKey? at h
  split at h
  · rename_i first separator after
    split at h
    · rename_i name mark hname _
      split at h
      · cases h
        refine .advance (.advance ?_)
        rw [Option.bind_some, hname]
        exact .pure ⟨rfl, rfl⟩
      · contradiction
    · contradiction
  · contradiction

/-- Inside one more collection, a walk does what it does there; it fails if they are too many. -/
theorem Ensures.nested {walk : Walk α}
    (hwalk : depth < maxDepth → Ensures stream short (depth + 1) tokens walk ok fails)
    (hdeep : maxDepth ≤ depth → fails (.at (headPosition stream.finish tokens) .tooDeep)) :
    Ensures stream short depth tokens (Cursor.nested walk) ok fails := by
  intro cursor hcursor
  have hinside : IsBefore stream (depth + 1) tokens ⟨cursor.pos, cursor.depth + 1⟩ :=
    ⟨hcursor.pos_le, hcursor.drop_eq, congrArg (· + 1) hcursor.depth_eq⟩
  change Fits stream short depth ok fails ((if cursor.depth + 1 > maxDepth then Cursor.fail .tooDeep
    else do
      let result ← walk
      modify fun cursor => ⟨cursor.pos, cursor.depth - 1⟩
      return result : Walk α).runFrom stream ⟨cursor.pos, cursor.depth + 1⟩)
  have hdepth := hcursor.depth_eq
  split
  · rw [runFrom_fail hinside]
    exact .failed (hdeep (by omega))
  · have hfits := hwalk (by omega) _ hinside
    rw [runFrom_bind]
    generalize walk.runFrom stream _ = outcome at hfits
    cases hfits with
    | ok hrest hresult =>
      exact .ok ⟨hrest.pos_le, hrest.drop_eq, Nat.sub_eq_of_eq_add hrest.depth_eq⟩ hresult
    | failed hfailure => exact .failed hfailure
    | unfinished hshort => exact .unfinished hshort

end Moves

end NeonAudit.Cursor
