import NeonAudit.Number.Digits
import NeonAudit.Text.DecimalDigit

/-!
# Locations named in messages

A message can name a position by the phrase `on line L, column C.`. The first such phrase counts.
Numbers of 64 bits or more, and digits that are not ASCII, leave a part of the location unknown.
-/

namespace NeonAudit

/-- A position of which either part may be unknown. -/
structure Location where
  /-- The line, counted from one. -/
  line : Option Nat
  /-- The column, counted from one. -/
  column : Option Nat
deriving DecidableEq

namespace Location

/-- A location of which nothing is known. -/
def unknown : Location :=
  ⟨none, none⟩

/-- The text after a given one, if it starts with that. -/
def afterText? : (start text : List Char) → Option (List Char)
  | [], text => some text
  | _ :: _, [] => none
  | c :: start, d :: text => if c = d then afterText? start text else none

/-- The run of digits at the start of a text, if there is one, and the text after it. -/
def digitsThen? (text : List Char) : Option (List Char × List Char) :=
  let digits := text.takeWhile Text.isDecimalDigit
  if digits.isEmpty then none else some (digits, text.dropWhile Text.isDecimalDigit)

/-- A number of 64 bits spelled by ASCII digits. -/
def number? (digits : List Char) : Option Nat :=
  (readDigits? 10 digits).filter (· < UInt64.size)

/-- The location that a phrase at the start of a text names. -/
def ofPhrase? (text : List Char) : Option Location := do
  let text ← afterText? "on line ".toList text
  let (line, text) ← digitsThen? text
  let text ← afterText? ", column ".toList text
  let (column, text) ← digitsThen? text
  let _ ← afterText? ".".toList text
  return ⟨number? line, number? column⟩

/-- The location that the first phrase in a text names. -/
def ofText : List Char → Location
  | [] => unknown
  | c :: text => (ofPhrase? (c :: text)).getD (ofText text)

/-- The location that a message names. -/
def ofMessage (message : String) : Location :=
  ofText message.toList

end Location

end NeonAudit
