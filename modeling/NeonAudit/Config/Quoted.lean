import NeonAudit.Number.Digits

/-!
# Quoted scalars of a configuration

Between single quotes a quote is written twice and all else stands for itself. Between double quotes
a backslash starts an escape: one letter, or `x`, `u` or `U` with two, four or eight hexadecimal
digits.

This is a subset of what YAML allows: a quoted scalar ends on the line on which it starts. A file is
refused in which one goes on on another line, is never closed, or has any other escape.
-/

namespace NeonAudit.Config

/-- The text up to a closing quote, and the text after it. The escape character takes the next
character along; if it is the quote itself, then only another quote. -/
def takeQuoted (quote escape : Char) : List Char → Option (List Char × List Char)
  | [] => none
  | [c] => if c = quote then some ([], []) else none
  | c :: d :: text =>
    if c = escape && (d = quote || escape != quote) then
      (takeQuoted quote escape text).map fun (body, rest) => (c :: d :: body, rest)
    else if c = quote then some ([], d :: text)
    else (takeQuoted quote escape (d :: text)).map fun (body, rest) => (c :: body, rest)

/-- A text with one single quote for every two that follow each other. -/
def undouble : List Char → List Char
  | [] => []
  | '\x27' :: '\x27' :: text => '\x27' :: undouble text
  | c :: text => c :: undouble text

/-- The characters that escapes of one letter stand for. -/
def letterEscapes : List (Char × Char) :=
  [('0', '\x00'), ('a', '\x07'), ('b', '\x08'), ('t', '\t'), ('\t', '\t'), ('n', '\n'),
   ('v', '\x0b'), ('f', '\x0c'), ('r', '\r'), ('e', '\x1b'), (' ', ' '), ('"', '"'), ('/', '/'),
   ('\\', '\\'), ('N', '\u0085'), ('_', '\u00a0'), ('L', '\u2028'), ('P', '\u2029')]

/-- The number of digits after the letters that start a numeric escape. -/
def digitEscapes : List (Char × Nat) :=
  [('x', 2), ('u', 4), ('U', 8)]

/-- Replaces the escapes of a text by what they stand for. Of a numeric escape that is being read,
a number of digits is still to come, and those before them spell a code. -/
def unescapeFrom : (digits code : Nat) → List Char → Option (List Char)
  | 0, _, [] => some []
  | 0, _, '\\' :: c :: text =>
    match letterEscapes.lookup c with
    | some d => (unescapeFrom 0 0 text).map (d :: ·)
    | none =>
      match digitEscapes.lookup c with
      | some digits => unescapeFrom digits 0 text
      | none => none
  | 0, _, ['\\'] => none
  | 0, _, c :: text => (unescapeFrom 0 0 text).map (c :: ·)
  | _ + 1, _, [] => none
  | digits + 1, code, c :: text =>
    match hexDigit? c with
    | none => none
    | some digit =>
      let code := code * 16 + digit
      if digits = 0 then
        if code.isValidChar then (unescapeFrom 0 0 text).map (Char.ofNat code :: ·) else none
      else unescapeFrom digits code text

/-- The text of a scalar between double quotes. -/
def unescape (body : List Char) : Option (List Char) :=
  unescapeFrom 0 0 body

/-- The text after a closing quote is shorter. -/
theorem length_lt_of_takeQuoted {quote escape : Char} {text body rest : List Char}
    (h : takeQuoted quote escape text = some (body, rest)) : rest.length < text.length := by
  fun_induction takeQuoted quote escape text generalizing body with
  | case1 => contradiction
  | case2 =>
    cases h
    exact Nat.zero_lt_one
  | case3 => contradiction
  | case4 c d text _ ih =>
    obtain ⟨⟨_, _⟩, hbody, heq⟩ := Option.map_eq_some_iff.1 h
    cases heq
    have := ih hbody
    simp only [List.length_cons] at this ⊢
    omega
  | case5 =>
    cases h
    simp
  | case6 c d text _ _ ih =>
    obtain ⟨⟨_, _⟩, hbody, heq⟩ := Option.map_eq_some_iff.1 h
    cases heq
    have := ih hbody
    simp only [List.length_cons] at this ⊢
    omega

end NeonAudit.Config
