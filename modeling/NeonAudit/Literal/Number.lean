import NeonAudit.Number.Digits
import NeonAudit.Number.Nearest
import NeonAudit.Value

/-!
# Numbers among the literals

A number is an integer in decimal with an optional sign, an integer in radix sixteen, eight or two
after `0x`, `0o` or `0b`, or a decimal with a point or an exponent. Integers have 64 bits: a
decimal one that does not fit is read as a float, and one with a radix is no number then.
-/

namespace NeonAudit.Literal

/-- A text divided into its sign, where a minus is recorded, and what follows. -/
def splitSign : List Char → Bool × List Char
  | '-' :: rest => (true, rest)
  | '+' :: rest => (false, rest)
  | text => (false, text)

/-- The integer of 64 bits with the given sign and magnitude, if there is one. -/
def boundedInteger? (negative : Bool) (magnitude : Nat) : Option Int64 :=
  let value : Int := if negative then -magnitude else magnitude
  if Int64.minValue.toInt ≤ value ∧ value ≤ Int64.maxValue.toInt then some (Int64.ofInt value)
  else none

/-- The integer of 64 bits spelled by an optional sign and decimal digits. -/
def integer? (text : List Char) : Option Int64 :=
  let (negative, digits) := splitSign text
  (readDigits? 10 digits).bind (boundedInteger? negative)

/-- The radix announced by the start of a text, and the text after it. -/
def splitRadix? : List Char → Option (Nat × List Char)
  | '0' :: 'x' :: rest => some (16, rest)
  | '0' :: 'o' :: rest => some (8, rest)
  | '0' :: 'b' :: rest => some (2, rest)
  | _ => none

/-- The parts of a decimal. -/
structure DecimalParts where
  /-- Whether the sign is a minus. -/
  negative : Bool
  /-- The digits before the point. -/
  whole : List Char
  /-- The digits after the point, if there is a point. -/
  fraction : Option (List Char)
  /-- The power of ten, if there is an exponent. -/
  exponent : Option Int
deriving DecidableEq

/-- The digits after a point, if a text is empty or starts with a point. -/
def fraction? : List Char → Option (Option (List Char))
  | [] => some none
  | '.' :: digits => if digits.all Char.isDigit then some (some digits) else none
  | _ => none

/-- The exponent after its mark, if a text is empty or is a mark, an optional sign and digits. -/
def exponent? : List Char → Option (Option Int)
  | [] => some none
  | _ :: rest =>
    let (negative, digits) := splitSign rest
    (readDigits? 10 digits).map fun n => some (if negative then -n else n)

/-- The parts of a text that spells a decimal: a sign or none, digits with a point before, among or
after them or none, and an exponent or none. -/
def decimalParts? (text : List Char) : Option DecimalParts := do
  let (negative, body) := splitSign text
  let mantissa := body.takeWhile fun c => c ≠ 'e' && c ≠ 'E'
  let exponent ← exponent? (body.dropWhile fun c => c ≠ 'e' && c ≠ 'E')
  let whole := mantissa.takeWhile Char.isDigit
  let fraction ← fraction? (mantissa.dropWhile Char.isDigit)
  if whole.isEmpty && (fraction.getD []).isEmpty then none
  else some ⟨negative, whole, fraction, exponent⟩

/-- The float nearest to a decimal. -/
def DecimalParts.toFloat (d : DecimalParts) : Binary64 :=
  let fraction := d.fraction.getD []
  Binary64.ofDecimal d.negative (digitsValue 10 (d.whole ++ fraction))
    (d.exponent.getD 0 - fraction.length)

/-- The number that a text spells, if it spells one. -/
def number? (text : List Char) : Option Scalar :=
  match splitRadix? text with
  | some (radix, digits) =>
    ((readDigits? radix digits).bind (boundedInteger? false)).map Scalar.int
  | none =>
    match integer? text with
    | some value => some (.int value)
    | none => (decimalParts? text).map fun parts => .float parts.toFloat

end NeonAudit.Literal
