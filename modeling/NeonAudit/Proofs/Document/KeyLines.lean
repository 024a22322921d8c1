import NeonAudit.Proofs.Document.Layout
import NeonAudit.Value.Path

/-!
# Keys on lines of their own

A document may nest keys, one on each line and each deeper than the one before, and end in a leaf
on the line of the last key. Each key opens a block, and the leaf opens none, so the document is
decoded to the value of the leaf nested along the keys if there are at most as many keys as levels
that may be opened, and otherwise fails where the first block too many starts.
-/

namespace NeonAudit

/-- The text is one token that denotes the value. -/
def SpellsLeaf (leaf : List Char) (value : Value) : Prop :=
  ∃ kind : Token.Kind, kind.Denotes value ∧ ∀ {rest}, Piece.Ends rest →
    Piece.Cuts (leaf ++ rest) [⟨.lexeme kind, leaf⟩] rest

/-- The text of a scalar spells it as a leaf. -/
theorem Scalar.spellsLeaf {s : Scalar} (h : s.Spellable) : SpellsLeaf s.text (.scalar s) := by
  obtain ⟨kind, hkind, -, hcuts⟩ := s.exists_cuts h
  exact ⟨kind, hkind, hcuts⟩

/-- A leaf is read as its value at any depth. -/
theorem SpellsLeaf.spelled {leaf : List Char} {value : Value} (h : SpellsLeaf leaf value)
    (depth : Nat) : Spelled leaf fun _ tokens => Reads depth tokens value := by
  obtain ⟨kind, hkind, hcuts⟩ := h
  exact (Spelled.of_denotes hkind hcuts depth).mono fun hread => hread.reads

/-- Keys on lines of their own, each deeper than the one before by the unit, and a leaf on the line
of the last key. -/
def keyLinesText (unit : List Char) : (indent : List Char) → (keys : List String) →
    (leaf : List Char) → List Char
  | _, [], leaf => leaf
  | _, [key], leaf => entryText key leaf
  | indent, key :: next :: rest, leaf =>
    keyText key ++ ':' :: '\n' :: (indent ++ unit ++
      keyLinesText unit (indent ++ unit) (next :: rest) leaf)

/-- A line that spells an entry is a block of its own. -/
theorem SpellsLine.single {depth : Nat} {indent : List Char} {line : Line} {key : String}
    {value : Value} (hindent : IsIndent indent)
    (h : SpellsLine depth indent false line (Item.ofEntry (key, value)).reading) :
    SpellsBlock (depth + 1) indent false [line] fun _ => .ok (.single key value) := by
  have hkeys : (Entries.keys [(key, value)]).Nodup := List.pairwise_singleton _ key
  have hlines : List.Forall₂ (SpellsLine depth indent false) [line]
      ([Item.ofEntry (key, value)].map Item.reading) := .cons h .nil
  have hblock := spellsBlock_of_items hindent (List.cons_ne_nil _ _) hlines hkeys
  rwa [← List.map_singleton, Item.collect_map_ofEntry hkeys (.inl (List.cons_ne_nil _ _))]
    at hblock

section KeyLines

variable {unit leaf : List Char} {value : Value} (hunit : IsIndent unit) (hne : unit ≠ [])
include hunit hne

/-- Keys on lines of their own spell a block of the value that is nested along them, with a level
for each key. -/
theorem spellsBlock_keyLinesText (hleaf : SpellsLeaf leaf value) (depth : Nat) {keys : List String}
    (hkeys : keys ≠ []) {indent : List Char} (hindent : IsIndent indent) :
    SpellsBlock (depth + keys.length) indent false
      [⟨false, keyLinesText unit indent keys leaf⟩] fun _ => .ok (value.nestAlong keys) := by
  induction keys generalizing indent with
  | nil => contradiction
  | cons key rest ih =>
    cases rest with
    | nil =>
      have hline : SpellsLine depth indent false _ (Item.ofEntry (key, value)).reading :=
        (hleaf.spelled depth).keyLine (spellsKey_keyText key) false
      exact hline.single hindent
    | cons next rest =>
      have hblock := ih (List.cons_ne_nil _ _) (hindent.append hunit)
      have hline : SpellsLine _ indent false _
          (Item.ofEntry (key, value.nestAlong (next :: rest))).reading :=
        hblock.keyLine hindent hunit hne (spellsKey_keyText key) false
      rw [brokenText, brokenText, List.append_nil] at hline
      exact hline.single hindent

/-- Keys on lines of their own are decoded to the value of the leaf nested along them if a level may
be opened for each key. -/
theorem decode_keyLinesText {lineEnd : List Char} (hleaf : SpellsLeaf leaf value)
    {keys : List String} (hlength : keys.length ≤ 256) (hend : isLineEnd lineEnd = true) :
    decode (String.ofList (keyLinesText unit [] keys leaf ++ lineEnd)) =
      .ok (value.nestAlong keys) := by
  have hdocument : Spelled (keyLinesText unit [] keys leaf)
      (ReadsDocument (value.nestAlong keys)) := by
    cases keys with
    | nil =>
      exact (hleaf.spelled 255).mono fun hread _ finish _ hafter =>
        hread.block finish [] hafter.endsValue
    | cons key rest =>
      have hindent : IsIndent [] := fun _ hc => absurd hc List.not_mem_nil
      obtain ⟨-, hblock⟩ := spellsBlock_keyLinesText hunit hne hleaf
        (256 - (key :: rest).length) (List.cons_ne_nil key rest) hindent
      rw [Nat.sub_add_cancel hlength, blockText, brokenText, List.append_nil] at hblock
      refine hblock.mono ?_
      rintro _ tokens hread rfl finish after hafter
      exact (hread rfl).read finish false (by simp) hafter.endsBlock
  rw [decode, String.toList_ofList]
  exact decodeChars_of_spelled hdocument hend

end KeyLines

/-- The tokens start with keys on lines of their own, which open `count` blocks inside the one that
they start. -/
inductive OpensBlocks (unit : List Char) : (indent : List Char) → (count : Nat) →
    List Token → Prop
  | leaf {indent tokens} : tokens ≠ [] → OpensBlocks unit indent 0 tokens
  | key {indent count key name colon lineBreak tokens} : name.kind ∈ [.literal key, .string key] →
      colon.kind = .mark .colon → lineBreak.kind = .lineBreak (indent ++ unit) →
        OpensBlocks unit (indent ++ unit) count tokens →
          OpensBlocks unit indent (count + 1) (name :: colon :: lineBreak :: tokens)

/-- Tokens that start blocks are there. -/
theorem OpensBlocks.ne_nil {unit indent : List Char} {count : Nat} {tokens : List Token}
    (h : OpensBlocks unit indent count tokens) : tokens ≠ [] := by
  cases h with
  | leaf hne => exact hne
  | key => exact List.cons_ne_nil _ _

/-- A block fails where the first of the blocks inside starts that may not be opened. -/
theorem OpensBlocks.tooDeep {unit indent : List Char} {count : Nat} {tokens : List Token}
    (h : OpensBlocks unit indent count tokens) (hne : unit ≠ []) {depth : Nat}
    (hdepth : depth ≤ count) (finish : Position) (after : List Token) :
    ∃ position, (block finish depth indent false).run (tokens ++ after) =
      .error (.at position .tooDeep) := by
  induction h generalizing depth with
  | leaf _ =>
    obtain rfl := Nat.le_zero.1 hdepth
    exact ⟨_, rfl⟩
  | @key indent count key name colon lineBreak tokens hname hcolon hbreak hinner ih =>
    cases depth with
    | zero => exact ⟨_, rfl⟩
    | succ depth =>
      obtain ⟨position, hrun⟩ := ih (Nat.le_of_succ_le_succ hdepth)
      have hstart := itemStart?_of_key hname hcolon (lineBreak :: (tokens ++ after))
      have hvalue : itemValue (inlineValue finish depth) (block finish depth) indent false
          (lineBreak :: (tokens ++ after)) = .error (.at position .tooDeep) := by
        rwa [itemValue_of_deeper hne hbreak
          (List.append_ne_nil_of_left_ne_nil hinner.ne_nil after)]
      refine ⟨position, ?_⟩
      change blockWith finish (inlineValue finish depth) (block finish depth) indent false
        (name :: colon :: lineBreak :: (tokens ++ after)) = .error (.at position .tooDeep)
      rw [blockWith, hstart, Option.isNone_some, Bool.and_false, if_neg Bool.false_ne_true,
        blockItems_of_itemValue_error hstart hvalue]
      rfl

/-- Keys on lines of their own open a block each. -/
theorem spelled_keyLinesText {unit leaf : List Char} {value : Value} (hunit : IsIndent unit)
    (hleaf : SpellsLeaf leaf value) (key : String) (keys : List String) {indent : List Char}
    (hindent : IsIndent indent) :
    Spelled (keyLinesText unit indent (key :: keys) leaf) fun _ tokens =>
      OpensBlocks unit indent keys.length tokens := by
  induction keys generalizing key indent with
  | nil =>
    refine ((hleaf.spelled 0).keyed (spellsKey_keyText key)).mono ?_
    rintro p tokens ⟨name, colon, b, q, rfl, -⟩
    exact .leaf (List.cons_ne_nil _ _)
  | cons next rest ih =>
    have hinner := hindent.append hunit
    refine ((ih next hinner).below_key hinner (spellsKey_keyText key) false).mono ?_
    rintro p tokens ⟨name, colon, lineBreak, b, rfl, hname, -, hcolon, hbreak, hb⟩
    exact .key hname hcolon hbreak hb

/-- A document of more keys on lines of their own than levels that may be opened is nested too
deeply. -/
theorem decode_keyLinesText_error {unit leaf lineEnd : List Char} {value : Value}
    (hunit : IsIndent unit) (hne : unit ≠ []) (hleaf : SpellsLeaf leaf value) {keys : List String}
    (hlength : 256 < keys.length) (hend : isLineEnd lineEnd = true) :
    ∃ position, decode (String.ofList (keyLinesText unit [] keys leaf ++ lineEnd)) =
      .error (.at position .tooDeep) := by
  cases keys with
  | nil => contradiction
  | cons key keys =>
    have hspelled := spelled_keyLinesText hunit hleaf key keys
      (fun _ hc => absurd hc List.not_mem_nil)
    have hblock : Spelled (keyLinesText unit [] (key :: keys) leaf) fun _ tokens =>
        ∀ finish after, ∃ cause, (block finish maxDepth [] false).run (tokens ++ after) =
          .error cause ∧ ∃ position, cause = .at position .tooDeep := by
      refine hspelled.mono fun hopens finish after => ?_
      obtain ⟨position, hrun⟩ := hopens.tooDeep hne (Nat.le_of_lt_succ hlength) finish after
      exact ⟨_, hrun, position, rfl⟩
    obtain ⟨failure, hdecode, position, rfl⟩ := decodeChars_of_spelled_error hblock hend
    rw [decode, String.toList_ofList]
    exact ⟨position, hdecode⟩

end NeonAudit
