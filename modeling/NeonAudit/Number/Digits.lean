/-!
# Runs of digits

A run of digits is read in a radix of at most sixteen, and a number is written in decimal, with as
many digits as it needs or, if it is natural, padded with zeros.
-/

namespace NeonAudit

/-- The value of a hexadecimal digit of either case. -/
def hexDigit? (c : Char) : Option Nat :=
  if c.isDigit then some (c.toNat - '0'.toNat)
  else if 'a' ≤ c ∧ c ≤ 'f' then some (c.toNat - 'a'.toNat + 10)
  else if 'A' ≤ c ∧ c ≤ 'F' then some (c.toNat - 'A'.toNat + 10)
  else none

/-- The value of a digit of the radix. -/
def digit? (radix : Nat) (c : Char) : Option Nat :=
  (hexDigit? c).filter (· < radix)

/-- Whether the text is one or more digits of the radix. -/
def isDigits (radix : Nat) (text : List Char) : Bool :=
  !text.isEmpty && text.all fun c => (digit? radix c).isSome

/-- The number denoted by digits of the radix; other characters count as zero. -/
def digitsValue (radix : Nat) (text : List Char) : Nat :=
  text.foldl (fun value c => radix * value + (digit? radix c).getD 0) 0

/-- The number denoted by a text of one or more digits of the radix. -/
def readDigits? (radix : Nat) (text : List Char) : Option Nat :=
  if isDigits radix text then some (digitsValue radix text) else none

/-- A natural number in decimal. -/
def decimalText (n : Nat) : List Char :=
  Nat.toDigits 10 n

/-- An integer in decimal. -/
def integerText (n : Int) : List Char :=
  if n < 0 then '-' :: decimalText n.natAbs else decimalText n.natAbs

/-- The text brought to at least the given length by repeating a character before it. -/
def padLeft (fill : Char) (width : Nat) (text : List Char) : List Char :=
  List.replicate (width - text.length) fill ++ text

/-- A natural number in decimal with at least the given number of digits. -/
def paddedText (width n : Nat) : List Char :=
  padLeft '0' width (decimalText n)

end NeonAudit
