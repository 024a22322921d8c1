import NeonAudit.Config.Quoted
import NeonAudit.Text.Lines

/-!
# Lexemes of a configuration

A line of a configuration consists of scalars and of the marks that arrange them. A plain scalar is
written without quotes and ends before a comment, before a colon that a blank or the end of the line
follows, and within brackets also before a comma or a bracket. Tabs can stand between lexemes but
not before the first one of a line or after a dash, except within brackets.

These are the lexemes of a subset of YAML. A file is refused if it has a directive, an anchor, an
alias, a tag, a block scalar after `|` or `>`, or a key after a question mark; if a plain scalar
goes on on another line, or starts with a question mark or a colon within brackets; if there is a
marker of a document anywhere but as three dashes on a line of their own before the content; and if
there is a byte order mark or a character that is not printable.
-/

namespace NeonAudit.Config

/-- A mark that arranges scalars. -/
inductive Mark
  | openList
  | closeList
  | openMapping
  | closeMapping
  | comma
  | colon
  | dash
deriving DecidableEq

/-- A scalar or a mark. -/
inductive Lexeme.Kind
  /-- A text, which is plain if it is written without quotes. -/
  | scalar (text : String) (plain : Bool)
  /-- A mark. -/
  | mark (mark : Mark)
deriving DecidableEq

/-- A scalar or a mark with its place in the layout. -/
structure Lexeme where
  /-- What it is. -/
  kind : Lexeme.Kind
  /-- The number of characters before it on its line. -/
  column : Nat
  /-- Whether it is the first one of its line. -/
  opensLine : Bool

/-- Whether a character separates lexemes. -/
def isSpace (c : Char) : Bool :=
  c = ' ' || c = '\t'

/-- Whether a text is at its end or starts with a blank. -/
def isSeparated (text : List Char) : Bool :=
  text.head?.all isSpace

/-- The mark that a character is within brackets. -/
def bracketMark? : Char → Option Mark
  | '[' => some .openList
  | ']' => some .closeList
  | '\x7b' => some .openMapping
  | '\x7d' => some .closeMapping
  | ',' => some .comma
  | _ => none

/-- How many brackets are open after a mark. -/
def Mark.depthAfter (depth : Nat) : Mark → Nat
  | openList => depth + 1
  | openMapping => depth + 1
  | closeList => depth - 1
  | closeMapping => depth - 1
  | comma => depth
  | colon => depth
  | dash => depth

/-- The mark that a character is before a text, if it is one where brackets are open to a depth. -/
def markAt? (depth : Nat) (c : Char) (text : List Char) : Option Mark :=
  if c = '-' then if isSeparated text then some .dash else none
  else if c = ':' then if isSeparated text || 0 < depth then some .colon else none
  else
    match bracketMark? c with
    | some .openList => some .openList
    | some .openMapping => some .openMapping
    | mark => if 0 < depth then mark else none

/-- The characters that cannot start a plain scalar anywhere. -/
def reserved : List Char :=
  ",[]\x7b\x7d#&*!|>\x27\"%@\x60".toList

/-- Whether a character before a text starts a plain scalar. -/
def startsPlain (depth : Nat) (c : Char) (text : List Char) : Bool :=
  if c = '?' || c = ':' then depth = 0 && !isSeparated text else c ∉ reserved

/-- The characters of a plain scalar up to its end, and the text after it, given whether brackets
are open and whether a blank stands before the text. -/
def takePlain (inBrackets : Bool) : (afterSpace : Bool) → List Char → List Char × List Char
  | _, [] => ([], [])
  | afterSpace, c :: text =>
    if c = ':' && isSeparated text || c = '#' && afterSpace ||
        inBrackets && (bracketMark? c).isSome then
      ([], c :: text)
    else
      let (body, rest) := takePlain inBrackets (isSpace c) text
      (c :: body, rest)

/-- A text without the blanks at its end. -/
def trimEnd (text : List Char) : List Char :=
  (text.reverse.dropWhile isSpace).reverse

/-- The scalar at the start of a text, and the text after it. Within brackets a plain scalar cannot
end in a colon before a bracket or a comma. -/
def takeScalar (depth : Nat) (c : Char) (text : List Char) :
    Option (Lexeme.Kind × List Char) :=
  if c = '\x27' then
    (takeQuoted '\x27' '\x27' text).map fun (body, rest) =>
      (.scalar (String.ofList (undouble body)) false, rest)
  else if c = '"' then
    match takeQuoted '"' '\\' text with
    | none => none
    | some (body, rest) =>
      (unescape body).map fun body => (.scalar (String.ofList body) false, rest)
  else if startsPlain depth c text then
    let (body, rest) := takePlain (decide (0 < depth)) false text
    let plain := trimEnd (c :: body)
    if 0 < depth && !rest.isEmpty && plain.getLast? = some ':' then none
    else some (.scalar (String.ofList plain) true, rest)
  else none

/-- The text after a plain scalar is no longer than before. -/
theorem length_takePlain_le (inBrackets afterSpace : Bool) (text : List Char) :
    (takePlain inBrackets afterSpace text).2.length ≤ text.length := by
  induction text generalizing afterSpace with
  | nil => exact Nat.le_refl _
  | cons c text ih =>
    unfold takePlain
    split
    · exact Nat.le_refl _
    · exact Nat.le_succ_of_le (ih _)

/-- The text after a scalar is no longer than the text after its first character. -/
theorem length_le_of_takeScalar {depth : Nat} {c : Char} {text rest : List Char}
    {kind : Lexeme.Kind} (h : takeScalar depth c text = some (kind, rest)) :
    rest.length ≤ text.length := by
  unfold takeScalar at h
  split at h
  · obtain ⟨⟨_, _⟩, hbody, heq⟩ := Option.map_eq_some_iff.1 h
    cases heq
    exact Nat.le_of_lt (length_lt_of_takeQuoted hbody)
  · split at h
    · split at h
      · contradiction
      · rename_i hbody
        obtain ⟨_, _, heq⟩ := Option.map_eq_some_iff.1 h
        cases heq
        exact Nat.le_of_lt (length_lt_of_takeQuoted hbody)
    · split at h
      · dsimp only at h
        split at h
        · contradiction
        · cases h
          exact length_takePlain_le _ _ _
      · contradiction

/-- The lexemes of the end of a line and the depth of brackets after it, given the width of the
line, the depth before it, whether the end is the whole line, and whether tabs can stand here. -/
def lexemesFrom (width depth : Nat) (opensLine tabs : Bool) :
    List Char → Option (List Lexeme × Nat)
  | [] => some ([], depth)
  | c :: text =>
    if c = ' ' then lexemesFrom width depth opensLine tabs text
    else if c = '\t' then
      if tabs || 0 < depth then lexemesFrom width depth opensLine tabs text else none
    else if c = '#' then some ([], depth)
    else
      let column := width - (text.length + 1)
      match markAt? depth c text with
      | some mark =>
        (lexemesFrom width (mark.depthAfter depth) false (mark != .dash) text).map
          fun (lexemes, depth) => (⟨.mark mark, column, opensLine⟩ :: lexemes, depth)
      | none =>
        match _h : takeScalar depth c text with
        | none => none
        | some (kind, rest) =>
          (lexemesFrom width depth false true rest).map
            fun (lexemes, depth) => (⟨kind, column, opensLine⟩ :: lexemes, depth)
termination_by text => text.length
decreasing_by
  all_goals simp only [List.length_cons]
  · omega
  · omega
  · omega
  · exact Nat.lt_succ_of_le (length_le_of_takeScalar _h)

/-- The lexemes of lines, given the depth of brackets before them. -/
def lexemesOfLines (depth : Nat) : List (List Char) → Option (List Lexeme)
  | [] => some []
  | line :: lines =>
    match lexemesFrom line.length depth true false line with
    | none => none
    | some (lexemes, depth) => (lexemesOfLines depth lines).map (lexemes ++ ·)

/-- The characters that a configuration can hold. -/
def isAllowed (c : Char) : Bool :=
  c = '\t' || c = '\n' || c = '\r' || ' ' ≤ c && c ≤ '~' || c = '\u0085' ||
    '\u00a0' ≤ c && c ≤ '\uFFFD' && c != '\uFEFF' || 0x10000 ≤ c.toNat

/-- Lines without those that are blank or only a comment at their front, and without the marker of
three dashes that can precede the content. -/
def withoutMarker (lines : List (List Char)) : List (List Char) :=
  let content := lines.dropWhile fun line => (line.dropWhile isSpace).head?.all (· = '#')
  match content with
  | [] => []
  | line :: rest => if trimEnd line = ['-', '-', '-'] then rest else lines

/-- The lexemes of a configuration. -/
def lexemes (source : List Char) : Option (List Lexeme) :=
  if source.all isAllowed then lexemesOfLines 0 (withoutMarker (Text.lines source)) else none

end NeonAudit.Config
