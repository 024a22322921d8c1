import NeonAudit.DecodeError
import NeonAudit.Result
import NeonAudit.Text.Blank
import NeonAudit.Text.Escape
import NeonAudit.Text.Lines
import NeonAudit.Token

/-!
# Pieces of a source

A source is cut into pieces: single blank characters, comments, line breaks together with the
indentation after them, and lexemes. The pieces are cut off one by one from the front, and the text
of a piece is what was cut off, so that the texts of all pieces make up the source again. Strings
that open with three quotes span lines; the line feeds inside them are part of their piece.
-/

namespace NeonAudit

/-- What a piece of a source is. -/
inductive Piece.Kind
  /-- A character between lexemes that means nothing. -/
  | blank
  /-- A number sign and the rest of its line. -/
  | comment
  /-- A line feed and the indentation after it. -/
  | lineBreak (indent : List Char)
  /-- The spelling of a token. -/
  | lexeme (kind : Token.Kind)
deriving DecidableEq

/-- A run of characters of a source that belong together. -/
structure Piece where
  /-- What the piece is. -/
  kind : Piece.Kind
  /-- The characters of the piece. -/
  text : List Char
deriving DecidableEq

namespace Piece

/-- Whether a character can be part of an indentation. -/
def isIndentation (c : Char) : Bool :=
  c = ' ' || c = '\t'

/-- Whether a character ends an unquoted literal. -/
def endsLiteral (c : Char) : Bool :=
  c ∈ [',', '=', ']', '\x7d', ')', '(', '\n', '\r']

/-- Whether a colon or a dash before the given character is a mark: at the end of the source,
before white space, before a comma, and before a closing bracket. -/
def closesIndicator : Option Char → Bool
  | none => true
  | some c => Text.isBlank c || c ∈ [',', ']', '\x7d', ')']

/-- Whether an unquoted literal goes on after blanks with the given text. -/
def continuesLiteral : List Char → Bool
  | [] => false
  | c :: _ => !endsLiteral c && c ≠ '#' && c ≠ ':'

/-- The characters of an unquoted literal after its first one, and the text after it. A colon ends
the literal where it is a mark, and blanks end it unless it goes on after them. -/
def splitLiteral : List Char → List Char × List Char
  | [] => ([], [])
  | c :: rest =>
    let goesOn :=
      if c = ':' then !closesIndicator rest.head?
      else if isIndentation c then continuesLiteral (rest.dropWhile isIndentation)
      else !endsLiteral c
    if goesOn then
      let (text, rest) := splitLiteral rest
      (c :: text, rest)
    else ([], c :: rest)

/-- What a string denotes, how it is written after its opening quote, and the text after it. -/
structure Body where
  /-- What the string denotes. -/
  value : List Char
  /-- The rest of the spelling, with the closing quote. -/
  text : List Char
  /-- The text after the string. -/
  rest : List Char

/-- A body with more characters before it. -/
def Body.extend (value text : List Char) (body : Body) : Body :=
  ⟨value ++ body.value, text ++ body.text, body.rest⟩

/-- A string in single quotes after its opening quote; a quote inside it is written twice. There is
none if the line ends first. -/
def singleQuoted? : List Char → Option Body
  | [] => none
  | '\x27' :: '\x27' :: rest => (singleQuoted? rest).map (.extend ['\x27'] ['\x27', '\x27'])
  | '\x27' :: rest => some ⟨[], ['\x27'], rest⟩
  | c :: rest => if c = '\n' then none else (singleQuoted? rest).map (.extend [c] [c])

/-- A string in double quotes after its opening quote, with its escapes as they are written. A
backslash keeps a quote after it from closing the string. There is none if the line ends first. -/
def doubleQuoted? : List Char → Option Body
  | [] => none
  | '"' :: rest => some ⟨[], ['"'], rest⟩
  | '\\' :: c :: rest =>
    if c = '\n' then none else (doubleQuoted? rest).map (.extend ['\\', c] ['\\', c])
  | c :: rest => if c = '\n' then none else (doubleQuoted? rest).map (.extend [c] [c])

/-- The text after three quotes, if it starts with them. -/
def afterThree? (quote : Char) : List Char → Option (List Char)
  | a :: b :: c :: rest => if a = quote ∧ b = quote ∧ c = quote then some rest else none
  | _ => none

/-- The text after a line break at its start, which may be preceded by a carriage return. -/
def afterLineBreak? : List Char → Option (List Char × List Char)
  | '\n' :: rest => some (['\n'], rest)
  | '\r' :: '\n' :: rest => some (['\r', '\n'], rest)
  | _ => none

/-- The lines of a string that spans lines, how they are written with the closing quotes, and the
text after it. -/
structure Lines where
  /-- The lines without their line feeds. -/
  lines : List (List Char)
  /-- The spelling of the lines, with the closing quotes. -/
  text : List Char
  /-- The text after the string. -/
  rest : List Char

/-- What follows the first character that fails a test is shorter than the text. -/
theorem length_of_dropWhile {p : Char → Bool} {text rest : List Char} {c : Char}
    (h : text.dropWhile p = c :: rest) : rest.length < text.length := by
  have hle := (List.dropWhile_suffix (l := text) p).length_le
  rw [h] at hle
  exact hle

/-- The lines up to one that starts with three quotes after an optional indentation. There are none
if the source ends first. -/
def quotedLines? (quote : Char) (text : List Char) : Option Lines :=
  match afterThree? quote (text.dropWhile isIndentation) with
  | some rest => some ⟨[], text.takeWhile isIndentation ++ [quote, quote, quote], rest⟩
  | none =>
    let line := text.takeWhile (· ≠ '\n')
    match h : text.dropWhile (· ≠ '\n') with
    | [] => none
    | lineFeed :: rest =>
      have := length_of_dropWhile h
      (quotedLines? quote rest).map fun more =>
        ⟨line :: more.lines, line ++ lineFeed :: more.text, more.rest⟩
termination_by text.length

/-- A line without an indentation, if it starts with it. -/
def withoutIndent (indent line : List Char) : List Char :=
  if indent.isPrefixOf line then line.drop indent.length else line

/-- The text of lines from which the indentation of the first has been removed. -/
def joinLines (lines : List (List Char)) : List Char :=
  let lines := lines.map Text.withoutReturn
  let indent := (lines.headD []).takeWhile isIndentation
  ['\n'].intercalate (lines.map (withoutIndent indent))

/-- What a string in the given quotes denotes: double quotes admit escapes. -/
def resolve (quote : Char) (raw : List Char) : Except DecodeError.Cause (List Char) :=
  if quote = '"' then (Text.unescape raw).mapError (.invalidEscape ∘ String.ofList)
  else .ok raw

/-- The piece of a string that denotes the given text. -/
def ofString (value text : List Char) : Piece :=
  ⟨.lexeme (.string (String.ofList value)), text⟩

/-- The string that starts with the given quote. -/
def cutString (quote : Char) (rest : List Char) : Except DecodeError.Cause (Piece × List Char) :=
  match afterThree? quote (quote :: rest) with
  | some rest =>
    match (afterLineBreak? rest).bind fun (opening, rest) =>
        (quotedLines? quote rest).map fun found => (opening, found) with
    | none => .error .unterminatedString
    | some (opening, found) =>
      (resolve quote (joinLines found.lines)).map fun value =>
        (ofString value (quote :: quote :: quote :: opening ++ found.text), found.rest)
  | none =>
    match if quote = '"' then doubleQuoted? rest else singleQuoted? rest with
    | none => .error .unterminatedString
    | some body =>
      (resolve quote body.value).map fun value =>
        (ofString value (quote :: body.text), body.rest)

/-- The mark that a character is on its own. -/
def bracketOrSeparator? : Char → Option Mark
  | ',' => some .comma
  | '=' => some .equals
  | '[' => some .openSquare
  | ']' => some .closeSquare
  | '\x7b' => some .openBrace
  | '\x7d' => some .closeBrace
  | '(' => some .openParen
  | ')' => some .closeParen
  | _ => none

/-- The mark that a character is where an indicator closes. -/
def indicator? : Char → Option Mark
  | ':' => some .colon
  | '-' => some .dash
  | _ => none

/-- The mark that a character before the given text is. -/
def mark? (c : Char) (rest : List Char) : Option Mark :=
  match bracketOrSeparator? c with
  | some mark => some mark
  | none => if closesIndicator rest.head? then indicator? c else none

/-- The piece that a source starts with, and the source after it. -/
def cut (c : Char) (rest : List Char) : Except DecodeError.Cause (Piece × List Char) :=
  if c = ' ' || c = '\t' || c = '\r' then .ok (⟨.blank, [c]⟩, rest)
  else if c = '#' then
    .ok (⟨.comment, c :: rest.takeWhile (· ≠ '\n')⟩, rest.dropWhile (· ≠ '\n'))
  else if c = '\n' then
    let indent := rest.takeWhile isIndentation
    .ok (⟨.lineBreak indent, c :: indent⟩, rest.dropWhile isIndentation)
  else if c = '\x27' || c = '"' then cutString c rest
  else if c = '\x60' then .error (.unexpected (String.singleton c))
  else
    match mark? c rest with
    | some mark => .ok (⟨.lexeme (.mark mark), [c]⟩, rest)
    | none =>
      let text := c :: (splitLiteral rest).1
      .ok (⟨.lexeme (.literal (String.ofList text)), text⟩, (splitLiteral rest).2)

/-- Splitting a literal loses nothing. -/
theorem splitLiteral_append (text : List Char) :
    (splitLiteral text).1 ++ (splitLiteral text).2 = text := by
  induction text with
  | nil => rfl
  | cons c rest ih =>
    simp only [splitLiteral]
    generalize (if c = ':' then !closesIndicator rest.head?
      else if isIndentation c then continuesLiteral (rest.dropWhile isIndentation)
      else !endsLiteral c) = goesOn
    cases goesOn with
    | false => rfl
    | true => exact congrArg (c :: ·) ih

/-- The spelling of a string in single quotes and the text after it make up the source. -/
theorem append_of_singleQuoted? {source : List Char} {body : Body}
    (h : singleQuoted? source = some body) : body.text ++ body.rest = source := by
  fun_induction singleQuoted? source generalizing body with
  | case1 => contradiction
  | case2 rest ih =>
    obtain ⟨found, hfound, rfl⟩ := Option.map_eq_some_iff.1 h
    simp [Body.extend, ih hfound]
  | case3 => cases h; rfl
  | case4 => contradiction
  | case5 c rest _ _ _ ih =>
    obtain ⟨found, hfound, rfl⟩ := Option.map_eq_some_iff.1 h
    simp [Body.extend, ih hfound]

/-- The spelling of a string in double quotes and the text after it make up the source. -/
theorem append_of_doubleQuoted? {source : List Char} {body : Body}
    (h : doubleQuoted? source = some body) : body.text ++ body.rest = source := by
  fun_induction doubleQuoted? source generalizing body with
  | case1 => contradiction
  | case2 => cases h; rfl
  | case3 => contradiction
  | case4 c rest _ ih =>
    obtain ⟨found, hfound, rfl⟩ := Option.map_eq_some_iff.1 h
    simp [Body.extend, ih hfound]
  | case5 => contradiction
  | case6 c rest _ _ _ ih =>
    obtain ⟨found, hfound, rfl⟩ := Option.map_eq_some_iff.1 h
    simp [Body.extend, ih hfound]

/-- Three quotes and the text after them make up the source. -/
theorem append_of_afterThree? {quote : Char} {source rest : List Char}
    (h : afterThree? quote source = some rest) : quote :: quote :: quote :: rest = source := by
  unfold afterThree? at h
  split at h
  · split at h
    · rename_i hquote
      obtain ⟨rfl, rfl, rfl⟩ := hquote
      cases h
      rfl
    · contradiction
  · contradiction

/-- A line break and the text after it make up the source. -/
theorem append_of_afterLineBreak? {source opening rest : List Char}
    (h : afterLineBreak? source = some (opening, rest)) : opening ++ rest = source := by
  unfold afterLineBreak? at h
  split at h
  · cases h; rfl
  · cases h; rfl
  · contradiction

/-- The spelling of the lines of a string and the text after them make up the source. -/
theorem append_of_quotedLines? {quote : Char} {source : List Char} {found : Lines}
    (h : quotedLines? quote source = some found) : found.text ++ found.rest = source := by
  fun_induction quotedLines? quote source generalizing found with
  | case1 text rest hthree =>
    cases h
    have := append_of_afterThree? hthree
    simp [this]
  | case2 => contradiction
  | case3 text _ line lineFeed rest hdrop _ =>
    rename_i ih
    obtain ⟨more, hmore, rfl⟩ := Option.map_eq_some_iff.1 h
    have happend := List.takeWhile_append_dropWhile (p := (· ≠ '\n')) (l := text)
    simp only [List.append_assoc, List.cons_append, ih hmore]
    rw [← hdrop]
    exact happend

/-- The piece of a string and the text after it make up the source. -/
theorem append_of_cutString {quote : Char} {rest remaining : List Char} {piece : Piece}
    (h : cutString quote rest = .ok (piece, remaining)) :
    piece.text ++ remaining = quote :: rest ∧ piece.text ≠ [] := by
  unfold cutString at h
  split at h
  · rename_i inner hthree
    split at h
    · contradiction
    · rename_i opening found hfound
      obtain ⟨value, -, hpiece⟩ := Result.of_map_eq_ok h
      cases hpiece
      obtain ⟨⟨first, after⟩, hbreak, hmap⟩ := Option.bind_eq_some_iff.1 hfound
      obtain ⟨lines, hlines, hpair⟩ := Option.map_eq_some_iff.1 hmap
      cases hpair
      have h₁ := append_of_quotedLines? hlines
      have h₂ := append_of_afterLineBreak? hbreak
      have h₃ := append_of_afterThree? hthree
      exact ⟨by simp [ofString, h₁, h₂, h₃], by simp [ofString]⟩
  · split at h
    · contradiction
    · rename_i body hbody
      obtain ⟨value, -, hpiece⟩ := Result.of_map_eq_ok h
      cases hpiece
      have happend : body.text ++ body.rest = rest := by
        split at hbody
        · exact append_of_doubleQuoted? hbody
        · exact append_of_singleQuoted? hbody
      exact ⟨by simp [ofString, happend], by simp [ofString]⟩

/-- The first piece and the source after it make up the source, and the piece is not empty. -/
theorem append_of_cut {c : Char} {rest remaining : List Char} {piece : Piece}
    (h : cut c rest = .ok (piece, remaining)) :
    piece.text ++ remaining = c :: rest ∧ piece.text ≠ [] := by
  unfold cut at h
  repeat' split at h
  all_goals first
    | contradiction
    | exact append_of_cutString h
    | (cases h; simp [splitLiteral_append])

/-- What is left after the first piece is shorter. -/
theorem length_of_cut {c : Char} {rest remaining : List Char} {piece : Piece}
    (h : cut c rest = .ok (piece, remaining)) : remaining.length < (c :: rest).length := by
  obtain ⟨happend, hne⟩ := append_of_cut h
  have := List.length_pos_iff.2 hne
  rw [← happend, List.length_append]
  omega

/-- The pieces of a source that starts at the given place, or the first fault. -/
def ofSource (p : Position) : (source : List Char) → Except DecodeError (List Piece)
  | [] => .ok []
  | c :: rest =>
    match h : cut c rest with
    | .error cause => .error ⟨cause, p⟩
    | .ok (piece, remaining) =>
      have := length_of_cut h
      (ofSource (p.after piece.text) remaining).map (piece :: ·)
termination_by source => source.length
decreasing_by exact this

end Piece

/-- The tokens of pieces of which the first starts at the given place. -/
def Token.ofPieces : Position → List Piece → List Token
  | _, [] => []
  | p, piece :: pieces =>
    let rest := Token.ofPieces (p.after piece.text) pieces
    match piece.kind with
    | .blank => rest
    | .comment => rest
    | .lineBreak indent => ⟨.lineBreak indent, "\n", p.after piece.text⟩ :: rest
    | .lexeme kind => ⟨kind, String.ofList piece.text, p⟩ :: rest

/-- The tokens without the line breaks that are directly followed by another one. -/
def Token.mergeLineBreaks : List Token → List Token
  | [] => []
  | token :: rest =>
    if token.isLineBreak && rest.head?.any isLineBreak then mergeLineBreaks rest
    else token :: mergeLineBreaks rest

/-- The tokens of a source. The first is the line break before its first line. -/
def TokenStream.ofSource (source : List Char) : Except DecodeError TokenStream :=
  let indent := source.takeWhile Piece.isIndentation
  let opening : Piece := ⟨.lineBreak indent, indent⟩
  (Piece.ofSource (Position.start.after indent) (source.dropWhile Piece.isIndentation)).map
    fun pieces =>
      ⟨Token.mergeLineBreaks (Token.ofPieces .start (opening :: pieces)),
        Position.start.after source⟩

end NeonAudit
