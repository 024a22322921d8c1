import NeonAudit.Proofs.Document.Legible
import NeonAudit.Proofs.Document.Lines
import NeonAudit.Proofs.Place
import NeonAudit.Proofs.Text.Span

/-!
# Texts laid out as blocks

The lines of a block are texts with the end of the line before and an indentation between them. If
each of them spells an item where its indentation ends, then together they spell the block. A block
is the value of an item of another block in three layouts: on deeper lines, on lines of the same
indentation that start with dashes, and on the line of a dash. The last is the reason why the
properties of lines and blocks speak about the column at which their tokens start.
-/

namespace NeonAudit

/-- The text is made of spaces and tabs. -/
def IsIndent (indent : List Char) : Prop :=
  ∀ c ∈ indent, Piece.isIndentation c = true

/-- An indentation may be added to another. -/
theorem IsIndent.append {indent unit : List Char} (h₁ : IsIndent indent) (h₂ : IsIndent unit) :
    IsIndent (indent ++ unit) :=
  fun c hc => (List.mem_append.1 hc).elim (h₁ c) (h₂ c)

/-- Two spaces are an indentation. -/
theorem isIndent_spaces : IsIndent [' ', ' '] := by
  intro c hc
  simp only [List.mem_cons, List.not_mem_nil, or_false, or_self] at hc
  rw [hc]
  rfl

/-- A line of a block: what follows its indentation, and whether a carriage return is part of the
line end before it. -/
structure Line where
  /-- The line end before the line starts with a carriage return. -/
  afterReturn : Bool
  /-- The text after the indentation. -/
  text : List Char

/-- The end of the line before, and the indentation of a line. -/
def lineBreakText (afterReturn : Bool) (indent : List Char) : List Char :=
  (if afterReturn then ['\r'] else []) ++ '\n' :: indent

/-- Lines of the given indentation, each after the end of the line before. -/
def brokenText (indent : List Char) : List Line → List Char
  | [] => []
  | line :: lines => lineBreakText line.afterReturn indent ++ (line.text ++ brokenText indent lines)

/-- Lines of the given indentation, from the text of the first one on. -/
def blockText (indent : List Char) : List Line → List Char
  | [] => []
  | line :: lines => line.text ++ brokenText indent lines

/-- The end of the line before the first of the lines, and its indentation. -/
def breakText (indent : List Char) : List Line → List Char
  | [] => []
  | line :: _ => lineBreakText line.afterReturn indent

/-- Lines after the end of the line before are that and the lines. -/
theorem brokenText_eq (indent : List Char) (lines : List Line) :
    brokenText indent lines = breakText indent lines ++ blockText indent lines := by
  cases lines <;> rfl

/-- An indentation moves to a later column. -/
theorem IsIndent.column_after {indent : List Char} (hindent : IsIndent indent) (p : Position) :
    (p.after indent).column = p.column + indent.length := by
  have hline : '\n' ∉ indent := fun hmem => absurd (hindent '\n' hmem) (by decide)
  rw [Position.after_of_notMem hline]

/-- After a line break the column is that after the indentation. -/
theorem column_after_lineBreakText {indent : List Char} (hindent : IsIndent indent)
    (p : Position) (text : List Char) (afterReturn : Bool) :
    (p.after (text ++ lineBreakText afterReturn indent)).column = indent.length + 1 := by
  rw [lineBreakText, ← List.append_assoc, Position.after_append, Position.after_cons,
    hindent.column_after, Position.next, if_pos rfl, Nat.add_comm]

namespace Piece

/-- The pieces of a line break. -/
def lineBreak (afterReturn : Bool) (indent : List Char) : List Piece :=
  (if afterReturn then [⟨.blank, ['\r']⟩] else []) ++ [⟨.lineBreak indent, '\n' :: indent⟩]

/-- The pieces of a line break are one token. -/
theorem exists_ofPieces_lineBreak (p : Position) (afterReturn : Bool) (indent : List Char) :
    ∃ token, Token.ofPieces p (lineBreak afterReturn indent) = [token] ∧
      token.kind = .lineBreak indent := by
  cases afterReturn <;> exact ⟨_, rfl, rfl⟩

/-- The pieces of a mark and a line break are two tokens. -/
theorem exists_ofPieces_mark_lineBreak (p : Position) (mark : Mark) (afterReturn : Bool)
    (indent : List Char) :
    ∃ token next, Token.ofPieces p (ofMark mark :: lineBreak afterReturn indent) = [token, next] ∧
      token.kind = .mark mark ∧ next.kind = .lineBreak indent := by
  obtain ⟨next, hpieces, hkind⟩ :=
    exists_ofPieces_lineBreak (p.after [mark.char]) afterReturn indent
  exact ⟨_, next, congrArg _ hpieces, rfl, hkind⟩

/-- A line break is cut off before what is no indentation. -/
theorem cuts_lineBreak {indent : List Char} (hindent : IsIndent indent) {c : Char}
    (hc : isIndentation c = false) (rest : List Char) (afterReturn : Bool) :
    Cuts (lineBreakText afterReturn indent ++ c :: rest) (lineBreak afterReturn indent)
      (c :: rest) := by
  have hcut : cut '\n' (indent ++ c :: rest) =
      .ok (⟨.lineBreak indent, '\n' :: indent⟩, c :: rest) := by
    have hhead : ∀ d ∈ (c :: rest).head?, isIndentation d = false := by
      rintro _ ⟨⟩
      exact hc
    have htake := Text.takeWhile_append_of_head? hindent hhead
    have hdrop := Text.dropWhile_append_of_head? hindent hhead
    simp [cut, htake, hdrop]
  cases afterReturn with
  | true => exact .cons rfl (.single hcut)
  | false => exact .single hcut

/-- A line break ends what stands before it. -/
theorem ends_lineBreakText (afterReturn : Bool) (indent rest : List Char) :
    Ends (lineBreakText afterReturn indent ++ rest) := by
  cases afterReturn <;> exact ends_of_endsLiteral rfl _

/-- A colon or a dash is a mark before a line break. -/
theorem closesIndicator_lineBreakText (afterReturn : Bool) (indent rest : List Char) :
    closesIndicator (lineBreakText afterReturn indent ++ rest).head? = true := by
  cases afterReturn <;> rfl

/-- A line break before merged tokens is merged. -/
theorem merged_lineBreak (p : Position) (afterReturn : Bool) (indent : List Char)
    {q : Position} {tokens : List Token} (hstarts : Token.Starts q tokens)
    (hmerged : Token.Merged tokens) :
    Token.Merged (Token.ofPieces p (lineBreak afterReturn indent) ++ tokens) := by
  obtain ⟨lineBreak, hpieces, -⟩ := exists_ofPieces_lineBreak p afterReturn indent
  obtain ⟨token, rest, rfl, htoken, -⟩ := hstarts
  rw [hpieces]
  exact hmerged.cons htoken lineBreak

/-- A line break may stand before a text. -/
theorem precedes_lineBreak {indent : List Char} (hindent : IsIndent indent) (afterReturn : Bool) :
    Precedes (lineBreakText afterReturn indent) (lineBreak afterReturn indent) where
  cuts rest hc := cuts_lineBreak hindent hc rest afterReturn
  merged p _ _ hstarts hmerged := merged_lineBreak p afterReturn indent hstarts hmerged

/-- A line break stands between two lines. -/
theorem joins_lineBreak {indent : List Char} (hindent : IsIndent indent) (afterReturn : Bool) :
    Joins (lineBreakText afterReturn indent) (lineBreak afterReturn indent) where
  toPrecedes := precedes_lineBreak hindent afterReturn
  ends _ _ := ends_lineBreakText afterReturn indent _

end Piece

/-- The text of a line is read as the line of a block where the indentation of the block ends. What
it is read as depends on that place. -/
def SpellsLine (depth : Nat) (indent : List Char) (dash : Bool) (line : Line)
    (reading : Position → Reading) : Prop :=
  Spelled line.text fun p tokens => p.column = indent.length + 1 →
    ReadsLine depth indent dash tokens (reading p)

/-- The text of lines is read as a block where the indentation of its first line ends. What it is
read as depends on that place. -/
def SpellsBlock (depth : Nat) (indent : List Char) (dash : Bool) (lines : List Line)
    (outcome : Position → Except DecodeFailure Value) : Prop :=
  lines ≠ [] ∧ Spelled (blockText indent lines) fun p tokens => p.column = indent.length + 1 →
    ReadsBlock depth indent dash tokens (outcome p)

/-- What lines are read as if the first of them starts at the given place. -/
def placed (indent : List Char) (p : Position) : List Line → List (Position → Reading) →
    List Reading
  | line :: lines, reading :: readings =>
    reading p :: placed indent (p.after (line.text ++ breakText indent lines)) lines readings
  | _, _ => []

/-- Lines are read one after another. -/
theorem spelled_blockText {depth : Nat} {indent : List Char} {dash : Bool} {line : Line}
    {lines : List Line} {reading : Position → Reading} {readings : List (Position → Reading)}
    (hindent : IsIndent indent)
    (h : List.Forall₂ (SpellsLine depth indent dash) (line :: lines) (reading :: readings)) :
    Spelled (blockText indent (line :: lines)) fun p tokens => p.column = indent.length + 1 →
      ReadsLines depth indent dash tokens
        (placed indent p (line :: lines) (reading :: readings)) := by
  induction lines generalizing line reading readings with
  | nil =>
    obtain ⟨hline, hnil⟩ := List.forall₂_cons.1 h
    cases hnil
    rw [blockText, brokenText, List.append_nil]
    exact hline.mono fun hread hcolumn => .single (hread hcolumn)
  | cons next lines ih =>
    obtain ⟨hline, hrest⟩ := List.forall₂_cons.1 h
    cases readings with
    | nil => cases hrest
    | cons reading' readings =>
      rw [blockText, brokenText]
      refine (hline.join (Piece.joins_lineBreak hindent next.afterReturn) (ih hrest)).mono ?_
      rintro p tokens ⟨a, b, rfl, ha, hb⟩ hcolumn
      obtain ⟨lineBreak, hpieces, hkind⟩ :=
        Piece.exists_ofPieces_lineBreak (p.after line.text) next.afterReturn indent
      rw [hpieces]
      exact .cons (ha hcolumn) hkind (hb (column_after_lineBreakText hindent p _ _))

/-- Lines are read as the block of their items. -/
theorem spellsBlock_of_lines {depth : Nat} {indent : List Char} {dash : Bool} {lines : List Line}
    {readings : List (Position → Reading)} (hindent : IsIndent indent) (hne : lines ≠ [])
    (h : List.Forall₂ (SpellsLine depth indent dash) lines readings) :
    SpellsBlock (depth + 1) indent dash lines fun p =>
      (Reading.items [] (placed indent p lines readings)).bind (Item.collect false) := by
  cases h with
  | nil => contradiction
  | cons hline hlines =>
    exact ⟨hne, (spelled_blockText hindent (.cons hline hlines)).mono
      fun hread hcolumn => (hread hcolumn).block⟩

/-- What a line is read as that is an item without a failure. -/
def Item.reading (item : Item) (p : Position) : Reading :=
  ⟨item.key.map (⟨·, p⟩), .ok item.value⟩

/-- Lines of items without failures yield the items. -/
theorem yields_placed {R : Line → (Position → Reading) → Prop} {lines : List Line}
    {items : List Item} (h : List.Forall₂ R lines (items.map Item.reading)) (indent : List Char)
    (p : Position) :
    List.Forall₂ Reading.Yields (placed indent p lines (items.map Item.reading)) items := by
  induction items generalizing lines p with
  | nil =>
    cases h
    exact .nil
  | cons item items ih =>
    cases lines with
    | nil => cases h
    | cons line lines =>
      refine .cons ⟨?_, rfl⟩ (ih (List.forall₂_cons.1 h).2 _)
      obtain ⟨key, value⟩ := item
      cases key <;> rfl

/-- Lines that are items of which no two have the same key are a block of their collection. -/
theorem spellsBlock_of_items {depth : Nat} {indent : List Char} {dash : Bool} {lines : List Line}
    {items : List Item} (hindent : IsIndent indent) (hitems : items ≠ [])
    (h : List.Forall₂ (SpellsLine depth indent dash) lines (items.map Item.reading))
    (hkeys : (Item.keys items).Nodup) :
    SpellsBlock (depth + 1) indent dash lines fun _ => Item.collect false items := by
  have hne : lines ≠ [] := by
    rintro rfl
    cases items with
    | nil => contradiction
    | cons item items => cases h
  have hread (p : Position) : Reading.items [] (placed indent p lines (items.map Item.reading)) =
      .ok items := Reading.items_of_yields (yields_placed h indent p) (Item.fresh_of_nodup hkeys)
  have hblock := spellsBlock_of_lines hindent hne h
  simp only [hread] at hblock
  exact hblock

/-- Lines that are read as a block are a document, with a line end after it or without one. -/
theorem SpellsBlock.decodeChars {dash : Bool} {lines : List Line}
    {outcome : Position → Except DecodeFailure Value}
    (h : SpellsBlock maxDepth [] dash lines outcome) {lineEnd : List Char}
    (hend : isLineEnd lineEnd = true) :
    decodeChars (blockText [] lines ++ lineEnd) = outcome .start := by
  obtain ⟨tokens, after, finish, hread, hafter, hdecode⟩ := exists_ofTokens_of_spelled h.2 hend
  rw [hdecode, (hread rfl).read finish false (by simp) hafter.endsBlock]
  cases outcome .start with
  | error failure => rfl
  | ok value =>
    dsimp only [Except.map]
    rw [hafter.skipLineBreaks]
    rfl

section Line

variable {depth : Nat} {indent unit text spelled : List Char} {dash : Bool} {lines : List Line}
  {value : Value} {key : String} {outcome : Position → Except DecodeFailure Value}

/-- A value on the line of its key. -/
theorem Spelled.keyLine (h : Spelled text fun _ tokens => Reads depth tokens value)
    (hkey : SpellsKey spelled key) (afterReturn : Bool) :
    SpellsLine depth indent false ⟨afterReturn, spelled ++ ':' :: ' ' :: text⟩
      fun p => ⟨some ⟨key, p⟩, .ok value⟩ := by
  refine (h.keyed hkey).mono ?_
  rintro p tokens ⟨name, colon, b, -, rfl, hname, -, rfl, hcolon, hb⟩ _
  exact hb.keyLine hname hcolon

/-- A value on the line of its dash. -/
theorem Spelled.dashLine (h : Spelled text fun _ tokens => Reads depth tokens value)
    (afterReturn : Bool) :
    SpellsLine depth indent true ⟨afterReturn, '-' :: ' ' :: text⟩ fun _ => ⟨none, .ok value⟩ := by
  refine (h.lead (Piece.precedes_space.leads_dash fun _ => rfl)).mono ?_
  rintro p tokens ⟨b, rfl, hb⟩ _
  exact hb.dashLine rfl

/-- A key before a text on the next line spells the key, a colon and a line break before the tokens
of the text. -/
theorem Spelled.below_key {P : Position → List Token → Prop} {inner : List Char}
    (hinner : IsIndent inner) (h : Spelled text P) (hkey : SpellsKey spelled key)
    (afterReturn : Bool) :
    Spelled (spelled ++ ':' :: (lineBreakText afterReturn inner ++ text)) fun p tokens =>
      ∃ name colon lineBreak b, tokens = name :: colon :: lineBreak :: b ∧
        name.kind ∈ [.literal key, .string key] ∧ name.position = p ∧ colon.kind = .mark .colon ∧
          lineBreak.kind = .lineBreak inner ∧
            P (p.after (spelled ++ ':' :: lineBreakText afterReturn inner)) b := by
  obtain ⟨kind, hkind, -, hcuts⟩ := hkey
  have hcolon := (Piece.precedes_lineBreak hinner afterReturn).joins_colon
    (Piece.closesIndicator_lineBreakText afterReturn inner)
  refine ((Spelled.of_cuts hcuts).join hcolon h).mono ?_
  rintro p tokens ⟨_, b, rfl, rfl, hb⟩
  obtain ⟨colon, lineBreak, hpieces, hcolon, hbreak⟩ := Piece.exists_ofPieces_mark_lineBreak
    (p.after spelled) .colon afterReturn inner
  rw [hpieces]
  exact ⟨_, colon, lineBreak, b, rfl, hkind, rfl, hcolon, hbreak, hb⟩

/-- A block on lines after the key. -/
theorem SpellsBlock.below_key {inner : List Char} (hinner : IsIndent inner)
    (h : SpellsBlock depth inner dash lines outcome) (hkey : SpellsKey spelled key)
    (afterReturn : Bool)
    (hread : ∀ {name colon lineBreak tokens result}, name.kind ∈ [.literal key, .string key] →
      colon.kind = .mark .colon → lineBreak.kind = .lineBreak inner →
        ReadsBlock depth inner dash tokens result →
          ReadsLine depth indent false (name :: colon :: lineBreak :: tokens)
            ⟨some ⟨key, name.position⟩, result⟩) :
    SpellsLine depth indent false ⟨afterReturn, spelled ++ ':' :: brokenText inner lines⟩
      fun p => ⟨some ⟨key, p⟩, outcome (p.after (spelled ++ ':' :: breakText inner lines))⟩ := by
  obtain ⟨hne, hspelled⟩ := h
  obtain ⟨line, lines, rfl⟩ := List.exists_cons_of_ne_nil hne
  refine (hspelled.below_key hinner hkey line.afterReturn).mono ?_
  rintro p tokens ⟨name, colon, lineBreak, b, rfl, hname, rfl, hcolon, hbreak, hb⟩ _
  have hcolumn := column_after_lineBreakText hinner name.position (spelled ++ [':'])
    line.afterReturn
  rw [List.append_assoc] at hcolumn
  exact hread hname hcolon hbreak (hb hcolumn)

/-- A block on deeper lines after its key. -/
theorem SpellsBlock.keyLine (h : SpellsBlock depth (indent ++ unit) dash lines outcome)
    (hindent : IsIndent indent) (hunit : IsIndent unit) (hne : unit ≠ [])
    (hkey : SpellsKey spelled key) (afterReturn : Bool) :
    SpellsLine depth indent false
      ⟨afterReturn, spelled ++ ':' :: brokenText (indent ++ unit) lines⟩ fun p =>
        ⟨some ⟨key, p⟩, outcome (p.after (spelled ++ ':' :: breakText (indent ++ unit) lines))⟩ :=
  h.below_key (hindent.append hunit) hkey afterReturn fun hname hcolon hbreak hread =>
    hread.keyLine hne hname hcolon hbreak

/-- A block of dashes on lines of the same indentation after its key. -/
theorem SpellsBlock.flushLine (h : SpellsBlock depth indent true lines outcome)
    (hindent : IsIndent indent) (hkey : SpellsKey spelled key) (afterReturn : Bool) :
    SpellsLine depth indent false ⟨afterReturn, spelled ++ ':' :: brokenText indent lines⟩
      fun p => ⟨some ⟨key, p⟩, outcome (p.after (spelled ++ ':' :: breakText indent lines))⟩ :=
  h.below_key hindent hkey afterReturn fun hname hcolon hbreak hread =>
    hread.flushLine hname hcolon hbreak

/-- A block on deeper lines after its dash. -/
theorem SpellsBlock.dashLine (h : SpellsBlock depth (indent ++ unit) dash lines outcome)
    (hindent : IsIndent indent) (hunit : IsIndent unit) (hunitne : unit ≠ [])
    (afterReturn : Bool) :
    SpellsLine depth indent true ⟨afterReturn, '-' :: brokenText (indent ++ unit) lines⟩
      fun p => ⟨none, outcome (p.after ('-' :: breakText (indent ++ unit) lines))⟩ := by
  obtain ⟨hne, hspelled⟩ := h
  obtain ⟨line, lines, rfl⟩ := List.exists_cons_of_ne_nil hne
  have hlead := (Piece.precedes_lineBreak (hindent.append hunit) line.afterReturn).leads_dash
    (Piece.closesIndicator_lineBreakText line.afterReturn (indent ++ unit))
  refine (hspelled.lead hlead).mono ?_
  rintro p tokens ⟨b, rfl, hb⟩ _
  obtain ⟨dashMark, lineBreak, hpieces, hdash, hbreak⟩ := Piece.exists_ofPieces_mark_lineBreak p
    .dash line.afterReturn (indent ++ unit)
  have hcolumn := column_after_lineBreakText (hindent.append hunit) p ['-'] line.afterReturn
  rw [hpieces]
  exact (hb hcolumn).dashLine hunitne hdash hbreak

/-- A block on the line of its dash. -/
theorem SpellsBlock.compactLine (h : SpellsBlock depth (indent ++ [' ', ' ']) dash lines outcome)
    (afterReturn : Bool) :
    SpellsLine depth indent true
      ⟨afterReturn, '-' :: ' ' :: blockText (indent ++ [' ', ' ']) lines⟩
      fun p => ⟨none, outcome (p.after ['-', ' '])⟩ := by
  refine (h.2.starting.lead (Piece.precedes_space.leads_dash fun _ => rfl)).mono ?_
  rintro p tokens ⟨b, rfl, hstarts, hb⟩ hcolumn
  have hinner : (p.after ['-', ' ']).column = (indent ++ [' ', ' ']).length + 1 := by
    rw [List.length_append]
    exact congrArg (· + 2) hcolumn
  obtain ⟨token, rest, rfl, -, hposition⟩ := hstarts
  refine (hb hinner).compactLine rfl ?_
  rw [hposition, hinner, List.length_append]
  rfl

end Line

end NeonAudit
