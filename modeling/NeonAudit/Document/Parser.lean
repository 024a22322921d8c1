import NeonAudit.DecodeError
import NeonAudit.Literal
import NeonAudit.Token
import NeonAudit.Value

/-!
# Parsers of values

A parser reads one value from the front of a list of tokens and hands back the tokens after it. It
carries the fact that it takes at least one token from the front of the list, so that reading one
value after another comes to an end.
-/

namespace NeonAudit

/-- Why decoding is broken off, which no error describes. -/
inductive DecodeFault
  /-- A literal has a zone that cannot be divided. -/
  | zone (fault : Literal.ZoneFault)
  /-- The index after that of an item is no integer of 64 bits. -/
  | index
deriving DecidableEq

/-- Why decoding ends without a value. -/
inductive DecodeFailure
  /-- The text is no document. -/
  | malformed (error : DecodeError)
  /-- Decoding is broken off. -/
  | fault (fault : DecodeFault)
deriving DecidableEq

/-- The failure for a cause at a position. -/
def DecodeFailure.at (position : Position) (cause : DecodeError.Cause) : DecodeFailure :=
  .malformed ⟨cause, position⟩

/-- What reading from a list of tokens results in. -/
abbrev Parsed (α : Type) :=
  Except DecodeFailure (α × List Token)

/-- Reads a value from the front of a list of tokens. -/
structure Parser where
  /-- The value and the tokens after it. -/
  run : List Token → Parsed Value
  /-- Some tokens are taken from the front. -/
  consumes : ∀ {tokens value rest}, run tokens = .ok (value, rest) →
    rest <:+ tokens ∧ rest.length < tokens.length

/-- The position of the first token, or the end of the text. -/
def headPosition (finish : Position) : List Token → Position
  | [] => finish
  | token :: _ => token.position

/-- The failure of finding the first token where it cannot stand. -/
def unexpected (finish : Position) : List Token → DecodeFailure
  | [] => .at finish .unexpectedEnd
  | token :: _ =>
    match token.kind with
    | .lineBreak _ => .at token.position .unexpectedLineEnd
    | _ => .at token.position (.unexpected token.text)

/-- The key that a token can be: the spelling of a literal or the text of a string. -/
def Token.key? (token : Token) : Option String :=
  match token.kind with
  | .literal raw => some raw
  | .string value => some value
  | _ => none

/-- A key with the token that spells it. -/
structure Key where
  /-- The key. -/
  name : String
  /-- Where the key is written. -/
  position : Position

/-- The key at the front of the tokens and the tokens after its separator, if the first token can be
a key and one of the separators follows it. -/
def splitKey? (separators : List Mark) : List Token → Option (Key × List Token)
  | token :: separator :: rest =>
    match token.key?, separator.kind with
    | some name, .mark mark =>
      if mark ∈ separators then some (⟨name, token.position⟩, rest) else none
    | _, _ => none
  | _ => none

/-- The failure of repeating a key. -/
def Key.duplicated (key : Key) : DecodeFailure :=
  .at key.position (.duplicatedKey key.name)

/-- The tokens after the line breaks at their front. -/
def skipLineBreaks (tokens : List Token) : List Token :=
  tokens.dropWhile Token.isLineBreak

/-- A key and its separator are tokens at the front. -/
theorem suffix_of_splitKey? {separators : List Mark} {tokens rest : List Token} {key : Key}
    (h : splitKey? separators tokens = some (key, rest)) :
    rest <:+ tokens ∧ rest.length < tokens.length := by
  unfold splitKey? at h
  repeat' split at h
  all_goals first
    | contradiction
    | (cases h; exact ⟨⟨[_, _], rfl⟩, by simp only [List.length_cons]; omega⟩)

/-- Skipping line breaks leaves an end of the tokens. -/
theorem skipLineBreaks_suffix (tokens : List Token) : skipLineBreaks tokens <:+ tokens :=
  List.dropWhile_suffix _

end NeonAudit
