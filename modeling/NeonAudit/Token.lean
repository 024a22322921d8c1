import NeonAudit.Position

/-!
# Tokens of a document

A document is a sequence of unquoted literals, strings, marks and line breaks. A line break carries
the indentation of the line it leads to; lines that are blank or hold only a comment have none of
their own. Every token keeps its spelling and its position for error messages.
-/

namespace NeonAudit

/-- A character with a meaning of its own. -/
inductive Mark
  | comma
  | colon
  | equals
  | dash
  | openSquare
  | closeSquare
  | openBrace
  | closeBrace
  | openParen
  | closeParen
deriving DecidableEq

/-- The character of a mark. -/
def Mark.char : Mark → Char
  | comma => ','
  | colon => ':'
  | equals => '='
  | dash => '-'
  | openSquare => '['
  | closeSquare => ']'
  | openBrace => '\x7b'
  | closeBrace => '\x7d'
  | openParen => '('
  | closeParen => ')'

/-- What a token is. -/
inductive Token.Kind
  /-- Unquoted text as it is written. -/
  | literal (raw : String)
  /-- The text that a quoted string denotes. -/
  | string (value : String)
  /-- A mark. -/
  | mark (mark : Mark)
  /-- The end of a line, with the indentation of the line that the next token is on. -/
  | lineBreak (indent : List Char)
deriving DecidableEq

/-- A token with its spelling and its place. -/
structure Token where
  /-- What the token is. -/
  kind : Token.Kind
  /-- How the token is written. -/
  text : String
  /-- Where the token starts; for a line break, where the line after it starts, past its
  indentation. -/
  position : Position
deriving DecidableEq

/-- The tokens of a text and the place where the text ends. -/
structure TokenStream where
  /-- The tokens in order. -/
  tokens : List Token
  /-- The end of the text. -/
  finish : Position
deriving DecidableEq

/-- Whether the token is a line break. -/
def Token.isLineBreak (token : Token) : Bool :=
  match token.kind with
  | .lineBreak _ => true
  | _ => false

/-- Whether the first token is the given mark. -/
def startsWithMark (mark : Mark) : List Token → Bool
  | [] => false
  | token :: _ => token.kind = .mark mark

end NeonAudit
