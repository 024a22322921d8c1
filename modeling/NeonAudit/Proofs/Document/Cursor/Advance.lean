import NeonAudit.Proofs.Document.Cursor.Decode

/-!
# The cursor advances

Where a cursor reads a value, a collection in brackets, or a block, it moves on, stays among the
tokens, and leaves open what was open, and so it does in every turn of a loop that another one
follows. What a walk ensures tells so: as it reads the same tokens as a parser, fewer are left.
-/

namespace NeonAudit.Cursor

variable {α σ : Type} {stream : TokenStream}

/-- The cursor has moved behind a token or more but not past the end, and as many collections are
open as before. -/
structure MovesOn (stream : TokenStream) (before after : Cursor) : Prop where
  /-- The cursor has moved. -/
  pos_lt : before.pos < after.pos
  /-- It is among the tokens. -/
  pos_le : after.pos ≤ stream.tokens.length
  /-- What has been opened is closed. -/
  depth_eq : after.depth = before.depth

/-- Wherever among the tokens the walk starts, the cursor has moved on after a result of this
kind. -/
def Advances (stream : TokenStream) (walk : Walk α) (kind : α → Prop) : Prop :=
  ∀ before result after, before.pos ≤ stream.tokens.length →
    walk.runFrom stream before = .ok (result, after) → kind result → MovesOn stream before after

/-- Another turn follows. -/
def Turn.IsAgain : Turn σ α → Prop
  | .again _ => True
  | .done _ => False

/-- A walk that leaves fewer tokens to be read advances. -/
theorem advances_of_ensures {walk : Walk α} {kind : α → Prop}
    {ok : Nat → List Token → α → List Token → Prop}
    {fails : Nat → List Token → DecodeFailure → Prop}
    (hwalk : ∀ depth tokens,
      Ensures stream True depth tokens walk (ok depth tokens) (fails depth tokens))
    (hless : ∀ {depth tokens result rest}, ok depth tokens result rest → kind result →
      rest.length < tokens.length) : Advances stream walk kind := by
  intro before result after hpos hrun hkind
  have hbefore : IsBefore stream before.depth (stream.tokens.drop before.pos) before :=
    ⟨hpos, rfl, rfl⟩
  have hfits := hwalk before.depth _ before hbefore
  rw [hrun] at hfits
  cases hfits with
  | ok hafter hok =>
    have hlength := hless hok hkind
    have := hbefore.length_eq
    have := hafter.length_eq
    exact ⟨by omega, hafter.pos_le, hafter.depth_eq⟩

/-- A turn of reading tokens advances if another one follows. -/
theorem advances_of_turns {whole : Nat → σ → List Token → Parsed α} {turn : σ → Walk (Turn σ α)}
    {state : σ} (h : ∀ depth tokens, Turns stream True depth (whole depth) turn state tokens) :
    Advances stream (turn state) Turn.IsAgain := by
  refine advances_of_ensures h fun {depth tokens result rest} hturn hagain => ?_
  cases result with
  | again next => exact hturn.1
  | done result => exact hagain.elim

section Reads

variable (stream) (depth : Nat)

/-- Inline values are read, however many turns it takes. -/
theorem readsWithin_value (fuel bound : Nat) :
    ReadsWithin stream True depth bound (value fuel)
      (inlineValue stream.finish (maxDepth - depth)) :=
  fun tokens _ => (reads_value fuel depth tokens).mono fun _ => trivial

/-- Blocks are read, however many turns it takes. -/
theorem readsBlocks_block (fuel bound : Nat) :
    ReadsBlocks stream True depth bound (block fuel)
      (NeonAudit.block stream.finish (maxDepth - depth)) :=
  fun indent onlyDashes tokens htokens =>
    (reads_block fuel depth bound indent onlyDashes tokens htokens).mono fun _ => trivial

/-- What is in brackets is read, however many turns it takes. -/
theorem readsBrackets_inline (fuel bound : Nat) :
    ReadsBrackets stream True depth bound (inline fuel)
      (inside? stream.finish (maxDepth - depth)) :=
  fun bracket token rest _ =>
    (reads_inline fuel depth (token :: rest) bracket token rest (Nat.le_refl _)).mono
      fun _ => trivial

end Reads

/-- Nothing is in brackets at the end, not even the closing one. -/
theorem bracketed_nil_ne_ok (finish : Position) (levels : Nat) (bracket : Bracket)
    (position : Position) (result : Value × List Token) :
    bracketed finish (inside? finish levels) bracket position [] ≠ .ok result := by
  cases levels with
  | zero => exact fun h => by contradiction
  | succ inner =>
    intro h
    obtain ⟨items, hitems, -⟩ := of_collected_eq_ok h
    rw [inlineItems_nil (run_inlineValue_nil finish inner)] at hitems
    contradiction

/-- Reading a collection in brackets advances: at the end there is nothing to be read. -/
theorem advances_inline (fuel : Nat) (bracket : Bracket) :
    Advances stream (inline fuel bracket) fun _ => True := by
  cases fuel with
  | zero => exact fun _ _ _ _ hrun => by contradiction
  | succ fuel =>
    have hreads : ∀ depth tokens, Reads stream True depth tokens (inline (fuel + 1) bracket)
        (bracketed stream.finish (inside? stream.finish (maxDepth - depth)) bracket
          (headPosition stream.finish tokens) tokens.tail) := by
      intro depth tokens
      refine reads_inlineWith rfl (fun inner hinner => ?_) (fun _ => trivial) bracket
      obtain rfl : inner = maxDepth - (depth + 1) := by omega
      exact readsWithin_value stream (depth + 1) fuel _
    refine advances_of_ensures hreads fun {depth tokens result rest} hresult _ => ?_
    have hlength := (suffix_of_bracketed hresult).length_le
    cases tokens with
    | nil => exact absurd hresult (bracketed_nil_ne_ok _ _ _ _ _)
    | cons token after => exact Nat.lt_succ_of_le hlength

/-- Reading advances, and so do the turns of its loops. -/
structure WalksAdvance (stream : TokenStream) (fuel : Nat) : Prop where
  /-- An inline value is not empty. -/
  value : Advances stream (value fuel) fun _ => True
  /-- A collection in brackets is not empty. -/
  inline : ∀ bracket, Advances stream (inline fuel bracket) fun _ => True
  /-- A block is not empty. -/
  block : ∀ indent onlyDashes, Advances stream (block fuel indent onlyDashes) fun _ => True
  /-- Line breaks are skipped one at a time. -/
  skipTurn : ∀ skipped, Advances stream (skipTurn skipped) Turn.IsAgain
  /-- Before more can be in brackets there is an item, or what separates items. -/
  inlineTurn : ∀ turns bracket builder,
    Advances stream (inlineTurn (Cursor.value fuel) turns bracket builder) Turn.IsAgain
  /-- Before another link of a chain there is a link. -/
  linkTurn : ∀ links, Advances stream (linkTurn (Cursor.inline fuel) links) Turn.IsAgain
  /-- Before another item of a block there is an item. -/
  blockTurn : ∀ indent onlyDashes builder, Advances stream
    (blockTurn (Cursor.value fuel) (Cursor.block fuel) indent onlyDashes builder) Turn.IsAgain

/-- Whatever the tokens and the bound on turns are, walks advance. -/
theorem walksAdvance (stream : TokenStream) (fuel : Nat) : WalksAdvance stream fuel where
  value := advances_of_ensures
    (fun depth tokens => readsWithin_value stream depth fuel tokens.length tokens (Nat.le_refl _))
    fun hrun _ => ((inlineValue _ _).consumes hrun).2
  inline := advances_inline fuel
  block indent onlyDashes := advances_of_ensures
    (fun depth tokens => readsBlocks_block stream depth fuel tokens.length indent onlyDashes tokens
      (Nat.le_refl _))
    fun hrun _ => ((NeonAudit.block _ _ _ _).consumes hrun).2
  skipTurn skipped := advances_of_turns fun _ tokens => turns_skipTurn skipped tokens
  inlineTurn _ bracket builder := advances_of_turns fun depth tokens =>
    turns_inlineTurn (readsWithin_value stream depth fuel tokens.length)
      (run_inlineValue_nil _ _) (fun _ => trivial) bracket builder
  linkTurn links := advances_of_turns fun depth tokens =>
    turns_linkTurn (readsBrackets_inline stream depth fuel tokens.length) links
  blockTurn _ _ builder := advances_of_turns fun depth tokens =>
    turns_blockTurn (readsWithin_value stream depth fuel tokens.length)
      (fun bound _ => readsBlocks_block stream depth fuel bound) builder

/-- Reading advances in every state of the cursor, and decoding a source comes to an end: with turns
enough for its characters it ends as decoding does. -/
theorem walksAdvance_and_decode_ends :
    (∀ stream fuel, WalksAdvance stream fuel) ∧
      ∀ source fuel, source.length + 1 < fuel →
        decode fuel source = (NeonAudit.decode source).mapError .failed :=
  ⟨walksAdvance, fun _ _ => decode_eq⟩

/-- A cursor moves from the opening bracket behind a dash to the end, and a bracket that is not
closed is found with turns enough for seven characters. -/
theorem walksAdvance_and_decode_ends_dash :
    MovesOn
        ⟨[⟨.mark .dash, "-", ⟨1, 1⟩⟩, ⟨.mark .openSquare, "[", ⟨1, 3⟩⟩, ⟨.string "b", "'b'", ⟨1, 4⟩⟩,
          ⟨.mark .closeSquare, "]", ⟨1, 7⟩⟩], ⟨1, 8⟩⟩
        ⟨1, 1⟩ ⟨4, 1⟩ ∧
      "- ['b',".length + 1 < 9 ∧
      decode 9 "- ['b'," = .error (.failed (.at ⟨1, 8⟩ .unexpectedEnd)) := by
  obtain ⟨hadvance, hends⟩ := walksAdvance_and_decode_ends
  have hturns : "- ['b',".length + 1 < 9 := by decide
  have hfailed : NeonAudit.decode "- ['b'," = .error (.at ⟨1, 8⟩ .unexpectedEnd) :=
    Result.of_map_eq_error (f := fun _ => ()) (by decide +kernel)
  have hdecode := hends _ 9 hturns
  rw [hfailed] at hdecode
  refine ⟨(hadvance _ 4).value ⟨1, 1⟩ (.sequence [.scalar (.string "b")]) ⟨4, 1⟩ ?_ ?_ trivial, hturns,
    hdecode⟩
  · decide
  · rfl

end NeonAudit.Cursor
