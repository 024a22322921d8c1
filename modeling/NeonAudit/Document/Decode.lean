import NeonAudit.Document.Block
import NeonAudit.Token.Piece

/-!
# Decoding documents

A document is one block, and null if it holds nothing but blanks and comments. Collections may be
nested 256 deep. A fault in a token is reported before any fault in their arrangement.
-/

namespace NeonAudit

/-- How deeply collections may be nested. -/
def maxDepth : Nat :=
  256

/-- The indentation of the first line and the tokens after the line break that carries it. -/
def splitOpening : List Token → List Char × List Token
  | [] => ([], [])
  | token :: rest =>
    match token.kind with
    | .lineBreak indent => (indent, rest)
    | _ => ([], rest)

/-- The value of a document given by its tokens. -/
def Value.ofTokens (stream : TokenStream) : Except DecodeFailure Value :=
  let (indent, tokens) := splitOpening stream.tokens
  if tokens.isEmpty then .ok .null
  else
    match (block stream.finish maxDepth indent false).run tokens with
    | .error failure => .error failure
    | .ok (value, rest) =>
      let rest := skipLineBreaks rest
      if rest.isEmpty then .ok value else .error (unexpected stream.finish rest)

/-- The value of a document given by its characters. -/
def decodeChars (source : List Char) : Except DecodeFailure Value :=
  match TokenStream.ofSource source with
  | .error error => .error (.malformed error)
  | .ok stream => Value.ofTokens stream

/-- The value of a document. -/
def decode (source : String) : Except DecodeFailure Value :=
  decodeChars source.toList

end NeonAudit
