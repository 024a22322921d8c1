import NeonAudit.Number.Digits

/-!
# Backslash escapes

Inside double quotes a backslash starts an escape: one letter for a control character or for the
character itself, `x` with two hexadecimal digits, or `u` with four, where a high surrogate is
completed by a low one in a second escape. Hexadecimal digits are read from the two or four
characters that follow, fewer at the end of the text, and may start with a plus sign.

Writing goes through the subset of these escapes that quoted strings of JSON know.
-/

namespace NeonAudit.Text

/-- The number spelled by hexadecimal digits after an optional plus sign. -/
def readHex? : List Char → Option Nat
  | '+' :: digits => readDigits? 16 digits
  | digits => readDigits? 16 digits

/-- Whether a number is a high surrogate, the first half of a pair. -/
def isHighSurrogate (n : Nat) : Bool :=
  0xD800 ≤ n && n < 0xDC00

/-- Whether a number is a low surrogate, the second half of a pair. -/
def isLowSurrogate (n : Nat) : Bool :=
  0xDC00 ≤ n && n < 0xE000

/-- The low surrogate that an escape at the start of a text spells. -/
def lowSurrogate? : List Char → Option Nat
  | '\\' :: 'u' :: digits => (readHex? digits).filter isLowSurrogate
  | _ => none

/-- The character of a pair of surrogates. -/
def surrogatePair (high low : Nat) : Char :=
  Char.ofNat (0x10000 + (high - 0xD800) * 0x400 + (low - 0xDC00))

/-- The character named by the digits after `u`, with the text that follows it. -/
def resolveUnicode (text : List Char) : Except (List Char) (Char × List Char) :=
  let fault := .error ('\\' :: 'u' :: text.take 4)
  match readHex? (text.take 4) with
  | none => fault
  | some unit =>
    if isHighSurrogate unit then
      match lowSurrogate? ((text.drop 4).take 6) with
      | none => fault
      | some low => .ok (surrogatePair unit low, (text.drop 4).drop 6)
    else if isLowSurrogate unit then fault
    else .ok (Char.ofNat unit, text.drop 4)

/-- The character named by the text after a backslash, with the text that follows it; otherwise the
sequence that names none. -/
def resolveEscape : List Char → Except (List Char) (Char × List Char)
  | [] => .error ['\\']
  | 't' :: rest => .ok ('\t', rest)
  | 'n' :: rest => .ok ('\n', rest)
  | 'r' :: rest => .ok ('\r', rest)
  | 'f' :: rest => .ok ('\x0c', rest)
  | 'b' :: rest => .ok ('\x08', rest)
  | '"' :: rest => .ok ('"', rest)
  | '\\' :: rest => .ok ('\\', rest)
  | '/' :: rest => .ok ('/', rest)
  | '_' :: rest => .ok ('\xa0', rest)
  | 'x' :: rest =>
    match readHex? (rest.take 2) with
    | some byte => .ok (Char.ofNat byte, rest.drop 2)
    | none => .error ('\\' :: 'x' :: rest.take 2)
  | 'u' :: rest => resolveUnicode rest
  | c :: _ => .error ['\\', c]

/-- What follows a character named by the digits after `u` is no longer than what stood there. -/
theorem length_of_resolveUnicode {text rest : List Char} {c : Char}
    (h : resolveUnicode text = .ok (c, rest)) : rest.length ≤ text.length := by
  unfold resolveUnicode at h
  repeat' split at h
  all_goals first
    | contradiction
    | (simp only [Except.ok.injEq, Prod.mk.injEq] at h
       obtain ⟨-, rfl⟩ := h
       simp only [List.length_drop]
       omega)

/-- An escape is not empty. -/
theorem length_of_resolveEscape {text rest : List Char} {c : Char}
    (h : resolveEscape text = .ok (c, rest)) : rest.length < text.length := by
  unfold resolveEscape at h
  split at h
  case h_12 => have := length_of_resolveUnicode h; simp only [List.length_cons]; omega
  case h_11 =>
    split at h
    · simp only [Except.ok.injEq, Prod.mk.injEq] at h
      obtain ⟨-, rfl⟩ := h
      simp only [List.length_drop, List.length_cons]
      omega
    · contradiction
  all_goals first
    | contradiction
    | (simp only [Except.ok.injEq, Prod.mk.injEq] at h
       obtain ⟨-, rfl⟩ := h
       simp)

/-- The text with its escapes replaced by the characters they name, or the first sequence that names
none. -/
def unescape : List Char → Except (List Char) (List Char)
  | [] => .ok []
  | c :: rest =>
    if c = '\\' then
      match h : resolveEscape rest with
      | .error sequence => .error sequence
      | .ok (named, rest') =>
        have := length_of_resolveEscape h
        (unescape rest').map (named :: ·)
    else (unescape rest).map (c :: ·)
termination_by text => text.length
decreasing_by all_goals simp only [List.length_cons]; omega

/-- A character inside a quoted string: the quote and the backslash are escaped, and so are the
control characters, five of them by a letter. -/
def escapeChar (c : Char) : List Char :=
  if c = '"' then ['\\', '"']
  else if c = '\\' then ['\\', '\\']
  else if c = '\n' then ['\\', 'n']
  else if c = '\r' then ['\\', 'r']
  else if c = '\t' then ['\\', 't']
  else if c = '\x08' then ['\\', 'b']
  else if c = '\x0c' then ['\\', 'f']
  else if c.toNat < 0x20 then '\\' :: 'u' :: padLeft '0' 4 (Nat.toDigits 16 c.toNat)
  else [c]

/-- A text between double quotes. -/
def quoted (text : List Char) : List Char :=
  '"' :: text.flatMap escapeChar ++ ['"']

end NeonAudit.Text
