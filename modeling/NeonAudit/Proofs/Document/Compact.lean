import NeonAudit.Proofs.Document.PassesLineEnds
import NeonAudit.Proofs.Document.Reached
import NeonAudit.Proofs.Token.Adjacent
import NeonAudit.Proofs.Token.Vacant

/-!
# Blocks on the line of a dash

A block that starts after a dash on its line has the indentation of the block around it, with as
many spaces as lead to the column of its first token. That token is always further to the right than
the indentation and the dash, so there is something to fill. For wherever a block is reached, it and
its items start behind its indentation: on a line of its own because the line break before it tells
the indentation, and on the line of a dash because the indentation ends where it starts.
-/

namespace NeonAudit

/-- The tokens start within a line, behind an indentation. -/
def StartsBehind (indent : List Char) (tokens : List Token) : Prop :=
  ∀ token ∈ tokens.head?, token.isLineBreak = false ∧ indent.length < token.position.column

/-- Tokens that follow each other as those of a source do. -/
structure Arranged (tokens : List Token) : Prop where
  /-- No line break follows another. -/
  apart : LinesApart tokens
  /-- After a mark or a line break the line goes on. -/
  leadOn : tokens.IsChain Token.LeadsOn

/-- The tokens of a source are arranged. -/
theorem arranged_of_ofSource {source : List Char} {stream : TokenStream}
    (h : TokenStream.ofSource source = .ok stream) : Arranged stream.tokens where
  apart := by
    obtain ⟨pieces, -, rfl⟩ := Result.of_map_eq_ok h
    exact Token.isChain_mergeLineBreaks _
  leadOn := TokenStream.isChain_leadsOn_of_ofSource h

namespace Arranged

variable {tokens rest : List Token}

/-- An end of tokens that are arranged is arranged. -/
theorem suffix (h : Arranged tokens) (hsuffix : rest <:+ tokens) : Arranged rest :=
  ⟨h.apart.suffix hsuffix, h.leadOn.suffix hsuffix⟩

/-- The tokens after a line break start behind the indentation that it tells. -/
theorem startsBehind {lineBreak : Token} {indent : List Char} (h : Arranged (lineBreak :: rest))
    (hkind : lineBreak.kind = .lineBreak indent) : StartsBehind indent rest := by
  intro token htoken
  have hbreak : token.isLineBreak = false := by
    have hline := h.apart.withinLine (by rw [Token.isLineBreak, hkind])
    rw [WithinLine, Option.mem_def.1 htoken] at hline
    exact hline
  have hplace : lineBreak.lineAfter? = some ⟨lineBreak.position.line, indent.length + 1⟩ := by
    rw [Token.lineAfter?, hkind]
  have hleads := (Token.isChain_leadsOn_cons.1 h.leadOn).1 _ hplace token htoken hbreak
  exact ⟨hbreak, hleads.2⟩

end Arranged

section Items

variable {finish : Position} {depth : Nat} {indent : List Char} {onlyDashes : Bool}
  {first tokens after : List Token} {seen : List String} {key? : Option Key}

/-- The items of a block start behind its indentation if the block does, and are ends of its
tokens. -/
theorem ReachesItem.startsBehind (h : ReachesItem finish depth indent onlyDashes first seen tokens)
    (harranged : Arranged first) (hfirst : StartsBehind indent first) :
    tokens <:+ first ∧ StartsBehind indent tokens := by
  induction h with
  | first => exact ⟨List.suffix_rfl, hfirst⟩
  | @next seen tokens key? after value rest item next _ hstart hvalue _ hcont ih =>
    have hrest := (suffix_of_itemValue hvalue).trans ((suffix_of_itemStart? hstart).1.trans ih.1)
    obtain ⟨lineBreak, rfl, hkind⟩ := exists_of_continuation hcont
    exact ⟨(List.suffix_cons lineBreak next).trans hrest,
      (harranged.suffix hrest).startsBehind hkind⟩

/-- An item without a key starts with a dash. -/
theorem exists_of_itemStart?_none (h : itemStart? onlyDashes tokens = some (none, after)) :
    ∃ dash, tokens = dash :: after ∧ dash.kind = .mark .dash := by
  unfold itemStart? at h
  split at h
  · contradiction
  · rename_i dash rest
    split at h
    · rename_i hkind
      cases h
      exact ⟨dash, rfl, hkind⟩
    · split at h
      · contradiction
      · obtain ⟨_, -, hpair⟩ := Option.map_eq_some_iff.1 h
        cases hpair

end Items

/-- The last indentation is exactly that of a block on the line of the dash, which starts with the
token, inside a block of the first indentation. -/
structure IsExactIndent (indent : List Char) (dash token : Token) (inner : List Char) : Prop where
  /-- The token is on the line of the dash. -/
  line_eq : token.position.line = dash.position.line
  /-- There is a column between the indentation and the token. -/
  column_gt : indent.length + 1 < token.position.column
  /-- Nothing is subtracted from less: neither one from the column nor the length of the indentation
  from what is left. -/
  subtractions : 1 ≤ token.position.column ∧ indent.length ≤ token.position.column - 1
  /-- At least one space is added to the indentation. -/
  exists_spaces : ∃ count, inner = indent ++ List.replicate (count + 1) ' '
  /-- The indentation ends before the column of the token. -/
  length_eq : inner.length + 1 = token.position.column

section Dash

variable {indent : List Char} {dash token : Token}

/-- A token that is further to the right than the indentation and one more column has an exact
block. -/
theorem isExactIndent_innerIndent (hline : token.position.line = dash.position.line)
    (hcolumn : indent.length + 1 < token.position.column) :
    IsExactIndent indent dash token (innerIndent indent token.position.column) where
  line_eq := hline
  column_gt := hcolumn
  subtractions := by omega
  exists_spaces := by
    refine ⟨token.position.column - 2 - indent.length, ?_⟩
    rw [innerIndent, show token.position.column - 2 - indent.length + 1 =
      token.position.column - 1 - indent.length by omega]
  length_eq := by
    rw [innerIndent, List.length_append, List.length_replicate]
    omega

/-- After a dash that is behind the indentation of its block, a token on its line has an exact
block. -/
theorem StartsBehind.isExactIndent {rest : List Token}
    (h : StartsBehind indent (dash :: token :: rest)) (harranged : Arranged (dash :: token :: rest))
    (hdash : dash.kind = .mark .dash) (hbreak : token.isLineBreak = false) :
    IsExactIndent indent dash token (innerIndent indent token.position.column) := by
  have hbehind := (h dash rfl).2
  have hplace : dash.lineAfter? = some ⟨dash.position.line, dash.position.column + 1⟩ := by
    rw [Token.lineAfter?, hdash]
  obtain ⟨hline, hcolumn⟩ :=
    (Token.isChain_leadsOn_cons.1 harranged.leadOn).1 _ hplace token rfl hbreak
  exact isExactIndent_innerIndent hline (Nat.lt_of_lt_of_le (Nat.succ_lt_succ hbehind) hcolumn)

end Dash

/-- After the dash of an item, a block on its line is exact if the block around it starts behind its
indentation. -/
theorem ReachesItem.isExactIndent_of_dash {finish : Position} {depth : Nat} {indent : List Char}
    {onlyDashes : Bool} {first tokens rest : List Token} {seen : List String} {token : Token}
    (h : ReachesItem finish depth indent onlyDashes first seen tokens) (harranged : Arranged first)
    (hfirst : StartsBehind indent first)
    (hstart : itemStart? onlyDashes tokens = some (none, token :: rest))
    (hbreak : token.isLineBreak = false) :
    ∃ dash, tokens = dash :: token :: rest ∧ dash.kind = .mark .dash ∧
      IsExactIndent indent dash token (innerIndent indent token.position.column) := by
  obtain ⟨hsuffix, hbehind⟩ := h.startsBehind harranged hfirst
  obtain ⟨dash, rfl, hdash⟩ := exists_of_itemStart?_none hstart
  exact ⟨dash, rfl, hdash, hbehind.isExactIndent (harranged.suffix hsuffix) hdash hbreak⟩

/-- Wherever a block is reached, its tokens are an end of those of the document and start behind its
indentation. -/
theorem TokenStream.ReachesBlock.startsBehind {stream : TokenStream} {depth : Nat}
    {indent : List Char} {onlyDashes : Bool} {tokens : List Token}
    (h : stream.ReachesBlock depth indent onlyDashes tokens) (harranged : Arranged stream.tokens)
    (hopening : stream.tokens.head?.any Token.isLineBreak = true) :
    tokens <:+ stream.tokens ∧ StartsBehind indent tokens := by
  -- By induction on the blocks around it; the items of one block are all behind its indentation.
  induction h with
  | @document indent tokens hsplit _ =>
    cases htokens : stream.tokens with
    | nil =>
      rw [htokens] at hopening
      contradiction
    | cons lineBreak rest =>
      rw [htokens] at hopening hsplit harranged
      obtain ⟨next, hkind⟩ := Token.exists_of_isLineBreak hopening
      rw [splitOpening, hkind] at hsplit
      cases hsplit
      exact ⟨List.suffix_cons lineBreak tokens, harranged.startsBehind hkind⟩
  | @item depth indent onlyDashes first seen tokens key? after inner innerDashes rest _ hitem hstart
      hholds ih =>
    have hfirst := harranged.suffix ih.1
    have hafter := (suffix_of_itemStart? hstart).1.trans
      ((hitem.startsBehind hfirst ih.2).1.trans ih.1)
    cases hholds.isBlockPlace with
    | below htokens hkind =>
      subst htokens
      exact ⟨(List.suffix_cons _ _).trans hafter,
        (harranged.suffix hafter).startsBehind hkind⟩
    | @compact token _ htokens hbreak hdash hinner =>
      subst htokens hinner
      obtain rfl := Option.isNone_iff_eq_none.1 hdash
      obtain ⟨dash, -, -, hexact⟩ := hitem.isExactIndent_of_dash hfirst ih.2 hstart hbreak
      refine ⟨hafter, fun found hfound => ?_⟩
      cases hfound
      exact ⟨hbreak, Nat.lt_of_succ_le hexact.length_eq.le⟩

/-- In every source, wherever an item of a block that is reached holds a block on the line of its
dash, the token after the dash is on that line and further to the right than the indentation of the
block around it and one more column, and the indentation of the block that it starts is exact. -/
theorem TokenStream.ReachesBlock.exists_isExactIndent {source : String} {stream : TokenStream}
    {depth : Nat} {indent inner : List Char} {onlyDashes innerDashes : Bool}
    {first tokens after : List Token} {seen : List String}
    (hstream : TokenStream.ofSource source.toList = .ok stream)
    (hblock : stream.ReachesBlock (depth + 1) indent onlyDashes first)
    (hitem : ReachesItem stream.finish depth indent onlyDashes first seen tokens)
    (hstart : itemStart? onlyDashes tokens = some (none, after))
    (hholds : HoldsBlock indent true after inner innerDashes after) :
    ∃ dash token rest, tokens = dash :: token :: rest ∧ after = token :: rest ∧
      dash.kind = .mark .dash ∧ IsExactIndent indent dash token inner := by
  have harranged := arranged_of_ofSource hstream
  obtain ⟨hsuffix, hbehind⟩ := hblock.startsBehind harranged
    (TokenStream.isLineBreak_head_of_ofSource hstream)
  cases hholds.isBlockPlace with
  | below htokens _ => exact absurd htokens (List.cons_ne_self _ _).symm
  | @compact token rest htokens hbreak _ hinner =>
    subst htokens hinner
    obtain ⟨dash, htokens, hdash, hexact⟩ :=
      hitem.isExactIndent_of_dash (harranged.suffix hsuffix) hbehind hstart hbreak
    exact ⟨dash, token, rest, htokens, rfl, hdash, hexact⟩

/-- In a list on the lines of a key and behind a tab, a dash after another one, and a tab, starts a
block, and so does the one after that and a carriage return. -/
theorem TokenStream.ReachesBlock.exists_isExactIndent_dashes :
    ∃ stream, TokenStream.ofSource "\tk:\n\t-\t-\r- a".toList = .ok stream ∧
      stream.ReachesBlock 254 ['\t', ' ', ' '] false
        [⟨.mark .dash, "-", ⟨2, 4⟩⟩, ⟨.mark .dash, "-", ⟨2, 6⟩⟩, ⟨.literal "a", "a", ⟨2, 8⟩⟩] ∧
      IsExactIndent ['\t', ' ', ' '] ⟨.mark .dash, "-", ⟨2, 4⟩⟩ ⟨.mark .dash, "-", ⟨2, 6⟩⟩
        ['\t', ' ', ' ', ' ', ' '] := by
  obtain ⟨stream, hstream, hlist⟩ :
      ∃ stream, TokenStream.ofSource "\tk:\n\t-\t-\r- a".toList = .ok stream ∧
        stream.ReachesBlock (254 + 1) ['\t'] true
          [⟨.mark .dash, "-", ⟨2, 2⟩⟩, ⟨.mark .dash, "-", ⟨2, 4⟩⟩, ⟨.mark .dash, "-", ⟨2, 6⟩⟩,
            ⟨.literal "a", "a", ⟨2, 8⟩⟩] := by
    refine ⟨⟨[⟨.lineBreak ['\t'], "\n", ⟨1, 2⟩⟩, ⟨.literal "k", "k", ⟨1, 2⟩⟩,
      ⟨.mark .colon, ":", ⟨1, 3⟩⟩, ⟨.lineBreak ['\t'], "\n", ⟨2, 2⟩⟩, ⟨.mark .dash, "-", ⟨2, 2⟩⟩,
      ⟨.mark .dash, "-", ⟨2, 4⟩⟩, ⟨.mark .dash, "-", ⟨2, 6⟩⟩, ⟨.literal "a", "a", ⟨2, 8⟩⟩], ⟨2, 9⟩⟩,
      by decide +kernel, ?_⟩
    exact .item (.document rfl (List.cons_ne_nil _ _)) .first rfl fun _ _ => rfl
  have hdash : stream.ReachesBlock (253 + 1) ['\t', ' ', ' '] false
      [⟨.mark .dash, "-", ⟨2, 4⟩⟩, ⟨.mark .dash, "-", ⟨2, 6⟩⟩, ⟨.literal "a", "a", ⟨2, 8⟩⟩] :=
    hlist.item .first rfl fun _ _ => rfl
  obtain ⟨_, _, _, htokens, -, -, hexact⟩ :=
    hdash.exists_isExactIndent hstream .first rfl fun _ _ => rfl
  cases htokens
  exact ⟨stream, hstream, hdash, hexact⟩

end NeonAudit
