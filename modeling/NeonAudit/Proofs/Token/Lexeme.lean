import NeonAudit.Proofs.Text.Escape
import NeonAudit.Proofs.Token.Cutting

/-!
# Lexemes before text that ends them

How a source is cut depends on what comes next in few places: a literal goes on over text that does
not end it, and two quotes may be the front of three. `Ends` describes the text before which both a
literal and a string are cut as if the source ended there.
-/

namespace NeonAudit.Piece

/-- Whether an unquoted literal goes on with a character before the given text. -/
def goesOn (c : Char) (rest : List Char) : Bool :=
  if c = ':' then !closesIndicator rest.head?
  else if isIndentation c then continuesLiteral (rest.dropWhile isIndentation)
  else !endsLiteral c

/-- A literal takes characters as long as it goes on with them. -/
theorem splitLiteral_cons (c : Char) (rest : List Char) :
    splitLiteral (c :: rest) =
      if goesOn c rest then (c :: (splitLiteral rest).1, (splitLiteral rest).2)
      else ([], c :: rest) := rfl

/-- The text after a literal and a string: it does not go on with the literal, and it does not
start with a quote. -/
structure Ends (rest : List Char) : Prop where
  /-- No literal goes on with the text. -/
  literal : (splitLiteral rest).1 = []
  /-- The text does not make two quotes three. -/
  quote : rest.head? ≠ some '"'

/-- The end of a source ends everything. -/
theorem ends_nil : Ends [] :=
  ⟨rfl, by simp⟩

/-- A character that ends a literal also ends a string. -/
theorem ends_of_endsLiteral {c : Char} (h : endsLiteral c = true) (rest : List Char) :
    Ends (c :: rest) := by
  have hgoes : goesOn c rest = false := by
    simp only [endsLiteral, List.mem_cons, List.not_mem_nil, or_false, decide_eq_true_eq] at h
    rcases h with rfl | rfl | rfl | rfl | rfl | rfl | rfl | rfl <;> rfl
  refine ⟨by rw [splitLiteral_cons, hgoes]; rfl, ?_⟩
  rintro ⟨⟩
  contradiction

/-- A colon that is a mark ends a literal and a string. -/
theorem ends_colon {rest : List Char} (h : closesIndicator rest.head? = true) :
    Ends (':' :: rest) := by
  have hgoes : goesOn ':' rest = false := by rw [goesOn, if_pos rfl, h]; rfl
  exact ⟨by rw [splitLiteral_cons, hgoes]; rfl, by simp⟩

/-- A literal that goes on goes on whatever stands after its text. -/
theorem goesOn_append {c : Char} {text : List Char} (h : goesOn c text = true)
    (rest : List Char) : goesOn c (text ++ rest) = true := by
  unfold goesOn at h ⊢
  split
  · rename_i hc
    rw [if_pos hc] at h
    cases text with
    | nil => contradiction
    | cons d text => exact h
  · rename_i hc
    rw [if_neg hc] at h
    split
    · rename_i hblank
      rw [if_pos hblank] at h
      rw [List.dropWhile_append]
      cases hdrop : text.dropWhile isIndentation with
      | nil =>
        rw [hdrop] at h
        contradiction
      | cons d text' =>
        rw [hdrop] at h
        exact h
    · rename_i hblank
      rwa [if_neg hblank] at h

/-- A text that a literal takes as a whole is taken before whatever ends it. -/
theorem splitLiteral_append_of_ends {text rest : List Char} (htext : (splitLiteral text).2 = [])
    (hrest : Ends rest) : splitLiteral (text ++ rest) = (text, rest) := by
  induction text with
  | nil =>
    have happend := splitLiteral_append rest
    rw [hrest.literal, List.nil_append] at happend
    exact Prod.ext hrest.literal happend
  | cons c text ih =>
    rw [splitLiteral_cons] at htext
    split at htext
    · rename_i hgoes
      rw [List.cons_append, splitLiteral_cons, goesOn_append hgoes, if_pos rfl, ih htext]
    · contradiction

/-- Whether a character is part of a literal in all places but the first. -/
def isInner (c : Char) : Bool :=
  !endsLiteral c && c ≠ ':' && !isIndentation c

/-- A literal takes characters that are part of it in all places. -/
theorem splitLiteral_of_isInner {text : List Char} (h : ∀ c ∈ text, isInner c = true)
    (rest : List Char) : (splitLiteral (text ++ rest)).2 = (splitLiteral rest).2 := by
  induction text with
  | nil => rfl
  | cons c text ih =>
    have hc := h c List.mem_cons_self
    simp only [isInner, Bool.and_eq_true, Bool.not_eq_true', decide_eq_true_eq] at hc
    obtain ⟨⟨hends, hcolon⟩, hblank⟩ := hc
    have hgoes : goesOn c (text ++ rest) = true := by
      rw [goesOn, if_neg hcolon, hblank, hends]
      rfl
    rw [List.cons_append, splitLiteral_cons, hgoes, if_pos rfl]
    exact ih fun d hd => h d (List.mem_cons_of_mem c hd)

/-- A literal takes a character with which it goes on. -/
theorem splitLiteral_of_goesOn {c : Char} {rest : List Char} (h : goesOn c rest = true) :
    (splitLiteral (c :: rest)).2 = (splitLiteral rest).2 := by
  rw [splitLiteral_cons, h]
  rfl

/-- The piece of an unquoted literal. -/
def literal (text : List Char) : Piece :=
  ⟨.lexeme (.literal (String.ofList text)), text⟩

/-- The piece of a mark. -/
def ofMark (mark : Mark) : Piece :=
  ⟨.lexeme (.mark mark), [mark.char]⟩

/-- The piece of a string in double quotes. -/
def quoted (text : List Char) : Piece :=
  ofString text (Text.quoted text)

/-- The piece of a space. -/
def space : Piece :=
  ⟨.blank, [' ']⟩

/-- Text that spells a literal: a literal starts with its first character and takes the others. -/
def IsLiteral : List Char → Prop
  | [] => False
  | c :: rest =>
    c ∉ [' ', '\t', '\r', '#', '\n', '\x27', '"', '\x60'] ∧ mark? c rest = none ∧
      (splitLiteral rest).2 = []

/-- What spells a literal is cut as one. -/
theorem IsLiteral.cuts {text rest : List Char} (h : IsLiteral text) (hrest : Ends rest) :
    Cuts (text ++ rest) [literal text] rest := by
  cases text with
  | nil => exact h.elim
  | cons c text =>
    obtain ⟨hc, hmark, hsplit⟩ := h
    have hmark' : mark? c (text ++ rest) = none := by
      cases text with
      | cons d text => exact hmark
      | nil =>
        -- At the end of the source an indicator is a mark, so the character is none.
        unfold mark? at hmark ⊢
        split at hmark
        · contradiction
        · have hindicator : indicator? c = none := hmark
          rw [hindicator, ite_self]
    simp only [List.mem_cons, List.not_mem_nil, or_false, not_or] at hc
    refine .single ?_
    simp [cut, hc, hmark', splitLiteral_append_of_ends hsplit hrest, literal]

/-- A text is a literal if a literal takes what follows its first character, and that character is
part of literals and has no meaning of its own. -/
theorem isLiteral_cons {c : Char} {text : List Char}
    (hc : c ∉ ['#', '\x27', '"', '\x60', '[', '\x7b'])
    (hdash : c = '-' → closesIndicator text.head? = false) (hinner : isInner c = true)
    (hsplit : (splitLiteral text).2 = []) : IsLiteral (c :: text) := by
  simp only [isInner, endsLiteral, isIndentation, Bool.and_eq_true, Bool.not_eq_true',
    decide_eq_true_eq, decide_eq_false_iff_not, Bool.or_eq_false_iff, List.mem_cons,
    List.not_mem_nil, or_false, not_or] at hinner
  simp only [List.mem_cons, List.not_mem_nil, or_false, not_or] at hc
  have hbracket : bracketOrSeparator? c = none := by
    unfold bracketOrSeparator?
    split <;> first | rfl | simp_all
  refine ⟨?_, ?_, hsplit⟩
  · simp only [List.mem_cons, List.not_mem_nil, or_false, not_or]
    grind
  · rw [mark?, hbracket]
    dsimp only
    by_cases hdash' : c = '-'
    · rw [hdash hdash', if_neg Bool.false_ne_true]
    · have hindicator : indicator? c = none := by
        unfold indicator?
        split <;> first | rfl | simp_all
      rw [hindicator, ite_self]

/-- A text of characters that are part of a literal in all places is a literal unless it starts
with a character that has a meaning of its own. -/
theorem isLiteral_of_isInner {c : Char} {text : List Char}
    (hc : c ∉ ['#', '\x27', '"', '\x60', '[', '\x7b'])
    (hdash : c = '-' → closesIndicator text.head? = false)
    (h : ∀ d ∈ c :: text, isInner d = true) : IsLiteral (c :: text) := by
  have hsplit := splitLiteral_of_isInner (fun d hd => h d (List.mem_cons_of_mem c hd)) []
  rw [List.append_nil] at hsplit
  exact isLiteral_cons hc hdash (h c List.mem_cons_self) hsplit

/-- A mark that is no indicator is cut wherever it stands. -/
theorem cuts_mark (mark : Mark) (h : bracketOrSeparator? mark.char = some mark)
    (rest : List Char) : Cuts (mark.char :: rest) [ofMark mark] rest := by
  refine .single ?_
  have hmark : mark? mark.char rest = some mark := by rw [mark?, h]
  cases mark <;> first | contradiction | (simp [cut, Mark.char, ofMark] at hmark ⊢; rw [hmark])

/-- An indicator is cut as a mark where it closes. -/
theorem cuts_indicator (mark : Mark) {rest : List Char} (h : indicator? mark.char = some mark)
    (hcloses : closesIndicator rest.head? = true) :
    Cuts (mark.char :: rest) [ofMark mark] rest := by
  refine .single ?_
  have hmark : mark? mark.char rest = some mark := by
    rw [mark?, hcloses, if_pos rfl, h]
    cases mark <;> rfl
  cases mark <;> first | contradiction | (simp [cut, Mark.char, ofMark] at hmark ⊢; rw [hmark])

/-- A space is cut on its own. -/
theorem cuts_space (rest : List Char) : Cuts (' ' :: rest) [space] rest :=
  .single rfl

/-- More of a string is added at its front in parts. -/
theorem Body.extend_extend (first second : List Char) (body : Body) :
    (body.extend second second).extend first first =
      body.extend (first ++ second) (first ++ second) := by
  simp [Body.extend]

/-- A character that neither closes a string nor starts an escape is part of it unless it ends the
line. -/
theorem doubleQuoted?_cons {c : Char} (hquote : c ≠ '"') (hbackslash : c ≠ '\\')
    (rest : List Char) :
    doubleQuoted? (c :: rest) =
      if c = '\n' then none else (doubleQuoted? rest).map (.extend [c] [c]) := by
  rw [doubleQuoted?]
  · exact hquote
  · exact fun _ _ hc => absurd hc hbackslash

/-- Characters that neither close a string nor start an escape are part of it. -/
theorem doubleQuoted?_append {text : List Char} (h : ∀ c ∈ text, c ∉ ['"', '\\', '\n'])
    (rest : List Char) :
    doubleQuoted? (text ++ rest) = (doubleQuoted? rest).map (.extend text text) := by
  induction text with
  | nil =>
    rw [List.nil_append]
    cases doubleQuoted? rest <;> rfl
  | cons c text ih =>
    have hc := h c List.mem_cons_self
    simp only [List.mem_cons, List.not_mem_nil, or_false, not_or] at hc
    obtain ⟨hquote, hbackslash, hline⟩ := hc
    have hcons : doubleQuoted? (c :: (text ++ rest)) =
        (doubleQuoted? (text ++ rest)).map (.extend [c] [c]) := by
      rw [doubleQuoted?_cons hquote hbackslash, if_neg hline]
    rw [List.cons_append, hcons, ih fun d hd => h d (List.mem_cons_of_mem c hd), Option.map_map]
    exact congrArg (fun f => (doubleQuoted? rest).map f) (funext (Body.extend_extend [c] text))

/-- A backslash and the character after it are part of a string. -/
theorem doubleQuoted?_escape {c : Char} (h : c ≠ '\n') (rest : List Char) :
    doubleQuoted? ('\\' :: c :: rest) = (doubleQuoted? rest).map (.extend ['\\', c] ['\\', c]) := by
  rw [doubleQuoted?, if_neg h]

/-- The spelling of a character inside quotes is part of a string. -/
theorem doubleQuoted?_escapeChar (c : Char) (rest : List Char) :
    doubleQuoted? (Text.escapeChar c ++ rest) =
      (doubleQuoted? rest).map (.extend (Text.escapeChar c) (Text.escapeChar c)) := by
  unfold Text.escapeChar
  repeat' split
  all_goals try exact doubleQuoted?_escape (by decide) rest
  · rename_i h
    have hdigits : ∀ n < 0x20, (padLeft '0' 4 (Nat.toDigits 16 n)).all
        (fun d => d ∉ ['"', '\\', '\n']) = true := by decide
    have hdigit : ∀ d ∈ padLeft '0' 4 (Nat.toDigits 16 c.toNat), d ∉ ['"', '\\', '\n'] :=
      fun d hd => of_decide_eq_true (List.all_eq_true.1 (hdigits c.toNat h) d hd)
    rw [List.cons_append, List.cons_append, doubleQuoted?_escape (by decide),
      doubleQuoted?_append hdigit, Option.map_map]
    exact congrArg (fun f => (doubleQuoted? rest).map f)
      (funext (Body.extend_extend ['\\', 'u'] (padLeft '0' 4 (Nat.toDigits 16 c.toNat))))
  · exact doubleQuoted?_append (by simp_all) rest

/-- A string is closed by the first quote that is not escaped. -/
theorem doubleQuoted?_flatMap (text rest : List Char) :
    doubleQuoted? (text.flatMap Text.escapeChar ++ '"' :: rest) =
      some ⟨text.flatMap Text.escapeChar, text.flatMap Text.escapeChar ++ ['"'], rest⟩ := by
  induction text with
  | nil => rfl
  | cons c text ih =>
    rw [List.flatMap_cons, List.append_assoc, doubleQuoted?_escapeChar, ih]
    simp [Body.extend]

/-- Three quotes need a second one. -/
theorem afterThree?_eq_none {quote second : Char} (h : second ≠ quote) (rest : List Char) :
    afterThree? quote (quote :: second :: rest) = none := by
  unfold afterThree?
  split
  · rename_i heq
    cases heq
    exact if_neg fun hall => h hall.2.1
  · rfl

/-- A quoted text is cut as the string that denotes it. -/
theorem cuts_quoted (text : List Char) {rest : List Char} (hrest : Ends rest) :
    Cuts (Text.quoted text ++ rest) [quoted text] rest := by
  have hthree : afterThree? '"' ('"' :: (text.flatMap Text.escapeChar ++ '"' :: rest)) = none := by
    cases text with
    | nil =>
      cases rest with
      | nil => rfl
      | cons c rest =>
        have hc : c ≠ '"' := fun hc => hrest.quote (congrArg some hc)
        exact if_neg fun hall => hc hall.2.2
    | cons c text =>
      obtain ⟨d, more, hmore, hd⟩ : ∃ d more, Text.escapeChar c = d :: more ∧ d ≠ '"' := by
        unfold Text.escapeChar
        repeat' split
        all_goals exact ⟨_, _, rfl, by first | decide | assumption⟩
      rw [List.flatMap_cons, hmore]
      exact afterThree?_eq_none hd _
  have hstring : cutString '"' (text.flatMap Text.escapeChar ++ '"' :: rest) =
      .ok (quoted text, rest) := by
    rw [cutString, hthree]
    dsimp only
    rw [if_pos rfl, doubleQuoted?_flatMap]
    dsimp only
    rw [resolve, if_pos rfl, Text.unescape_flatMap_escapeChar]
    rfl
  have happend : Text.quoted text ++ rest =
      '"' :: (text.flatMap Text.escapeChar ++ '"' :: rest) := by
    simp [Text.quoted]
  rw [happend]
  refine .single ?_
  simp [cut, hstring]

end NeonAudit.Piece
