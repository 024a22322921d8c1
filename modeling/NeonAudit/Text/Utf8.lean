/-!
# UTF-8

A sequence of bytes is read from left to right. A character ends with its last byte. A sequence of
bytes that starts a character and cannot be continued to one is broken: it ends before the first
byte that does not continue it, or with itself if its first byte starts no character. Reading goes
on with the next byte. No character has a second spelling, and surrogates have none.
-/

namespace NeonAudit.Text

/-- What has been read of a character that is not complete. -/
structure PartialChar where
  /-- The bits of the code point read so far. -/
  bits : Nat
  /-- How many bytes must follow. -/
  following : Nat
  /-- The least byte that can be the next one. -/
  least : UInt8
  /-- The greatest byte that can be the next one. -/
  greatest : UInt8
deriving DecidableEq

/-- What reading a byte gives: the characters completed and the sequences broken by it in order,
with none for a broken one, and the character that is not complete after it. -/
abbrev ByteResult :=
  List (Option Char) × Option PartialChar

/-- Reads the first byte of a character. The range of the second byte leaves out longer spellings
of characters that have shorter ones, surrogates, and numbers too large to be code points. -/
def readLeadByte (byte : UInt8) : ByteResult :=
  let bits := byte.toNat
  if byte < 0x80 then ([some (Char.ofNat bits)], none)
  else if byte < 0xc2 then ([none], none)
  else if byte < 0xe0 then ([], some ⟨bits - 0xc0, 1, 0x80, 0xbf⟩)
  else if byte < 0xf0 then
    let least := if byte = 0xe0 then 0xa0 else 0x80
    let greatest := if byte = 0xed then 0x9f else 0xbf
    ([], some ⟨bits - 0xe0, 2, least, greatest⟩)
  else if byte < 0xf5 then
    let least := if byte = 0xf0 then 0x90 else 0x80
    let greatest := if byte = 0xf4 then 0x8f else 0xbf
    ([], some ⟨bits - 0xf0, 3, least, greatest⟩)
  else ([none], none)

/-- Reads a byte that continues a character. -/
def PartialChar.readByte (char : PartialChar) (byte : UInt8) : ByteResult :=
  let bits := char.bits * 64 + (byte.toNat - 0x80)
  if char.following ≤ 1 then ([some (Char.ofNat bits)], none)
  else ([], some ⟨bits, char.following - 1, 0x80, 0xbf⟩)

/-- Reads a byte after a character that may not be complete. -/
def readByte : Option PartialChar → UInt8 → ByteResult
  | none, byte => readLeadByte byte
  | some char, byte =>
    if char.least ≤ byte && byte ≤ char.greatest then char.readByte byte
    else
      let (read, next) := readLeadByte byte
      (none :: read, next)

/-- Reads bytes after a character that may not be complete. -/
def readBytesAfter : Option PartialChar → List UInt8 → List (Option Char)
  | none, [] => []
  | some _, [] => [none]
  | char, byte :: bytes =>
    let (read, next) := readByte char byte
    read ++ readBytesAfter next bytes

/-- The characters of a sequence of bytes, with none for every broken sequence among them. -/
def readBytes (bytes : List UInt8) : List (Option Char) :=
  readBytesAfter none bytes

/-- The text that a sequence of bytes spells, if nothing in it is broken. -/
def ofUtf8? (bytes : List UInt8) : Option (List Char) :=
  (readBytes bytes).mapM id

/-- The characters before the first broken sequence. -/
def validStart (bytes : List UInt8) : List Char :=
  ((readBytes bytes).takeWhile Option.isSome).filterMap id

/-- The character that stands for a broken sequence. -/
def replacement : Char :=
  '\uFFFD'

/-- The text of a sequence of bytes with a replacement for every broken sequence. -/
def ofUtf8WithReplacements (bytes : List UInt8) : List Char :=
  (readBytes bytes).map (Option.getD · replacement)

end NeonAudit.Text
