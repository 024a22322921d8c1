import NeonAudit.Position

/-!
# Errors of decoding

A text that is no document is refused for a cause at a position. The message states the cause and
ends with the position, so that a reader of the message alone can find the place.
-/

namespace NeonAudit

/-- Why a text is no document. -/
inductive DecodeError.Cause
  /-- Something stands where it cannot stand. -/
  | unexpected (text : String)
  /-- The text ends where more is needed. -/
  | unexpectedEnd
  /-- The line ends where more is needed. -/
  | unexpectedLineEnd
  /-- A quoted string is not closed. -/
  | unterminatedString
  /-- A backslash starts a sequence that names no character. -/
  | invalidEscape (sequence : String)
  /-- A collection repeats a key. -/
  | duplicatedKey (key : String)
  /-- A line is indented more than the items of its block. -/
  | badIndentation
  /-- Neither of two indentations starts with the other. -/
  | mixedIndentation
  /-- Collections are nested too deeply. -/
  | tooDeep
deriving DecidableEq

/-- A cause and the place where it was found. -/
structure DecodeError where
  /-- Why the text is no document. -/
  cause : DecodeError.Cause
  /-- Where it was found. -/
  position : Position
deriving DecidableEq

/-- The statement of a cause. -/
def DecodeError.Cause.text : DecodeError.Cause → String
  | unexpected text => "Unexpected '" ++ text ++ "'"
  | unexpectedEnd => "Unexpected end"
  | unexpectedLineEnd => "Unexpected end of line"
  | unterminatedString => "Unterminated string"
  | invalidEscape sequence => "Invalid escaping sequence " ++ sequence
  | duplicatedKey key => "Duplicated key '" ++ key ++ "'"
  | badIndentation => "Bad indentation"
  | mixedIndentation => "Invalid combination of tabs and spaces"
  | tooDeep => "Nesting is too deep"

/-- The phrase that names a position. -/
def Position.phrase (p : Position) : String :=
  " on line " ++ toString p.line ++ ", column " ++ toString p.column ++ "."

/-- The statement of the cause followed by the position. -/
def DecodeError.message (e : DecodeError) : String :=
  e.cause.text ++ e.position.phrase

end NeonAudit
