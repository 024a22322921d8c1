import NeonAudit.Calendar.DateTime
import NeonAudit.Number.Digits
import NeonAudit.Text.DecimalDigit

/-!
# Dates and times among the literals

A date has four digits of year and one or two each of month and day, with hyphens between them. A
time of day may follow after `T`, `t` or blanks, with colons between its parts and an optional
fraction of its seconds, and after it a zone: `Z`, or a sign with hours and minutes.

The digits of the fraction and of the zone may be those of any script, though only the ASCII ones
have a value. A zone of three or four bytes is divided two bytes before its end. Where that place
is inside a character there is no result at all, and `ZoneFault` reports it.
-/

namespace NeonAudit.Literal

/-- The zone of a date and time would have to be divided inside a character. -/
structure ZoneFault where
  /-- The hours and minutes of the zone, without sign and colon. -/
  zone : List Char
deriving DecidableEq

/-- A run of ASCII digits at the start of a text, if its length is within the bounds, with its value
and the rest of the text. -/
def digitRun? (least most : Nat) (text : List Char) : Option (Nat × List Char) :=
  let digits := text.takeWhile Char.isDigit
  if least ≤ digits.length && digits.length ≤ most then
    some (digitsValue 10 digits, text.dropWhile Char.isDigit)
  else none

/-- The text after a given character, if it starts with it. -/
def after? (c : Char) : List Char → Option (List Char)
  | [] => none
  | first :: rest => if first = c then some rest else none

/-- The day at the start of a text, and the rest of the text. -/
def date? (text : List Char) : Option (Date × List Char) := do
  let (year, text) ← digitRun? 4 4 text
  let text ← after? '-' text
  let (month, text) ← digitRun? 1 2 text
  let text ← after? '-' text
  let (day, text) ← digitRun? 1 2 text
  let date ← Date.of? year month day
  return (date, text)

/-- The text after what separates a day from a time: `T`, `t`, or one or more blanks. -/
def afterSeparator? : List Char → Option (List Char)
  | 'T' :: rest => some rest
  | 't' :: rest => some rest
  | ' ' :: rest => some (rest.dropWhile (· = ' '))
  | _ => none

/-- The nanoseconds denoted by the digits of a fraction: the first nine count, missing ones are
zeros, and digits that are not ASCII make the whole fraction zero. -/
def nanoseconds (digits : List Char) : Nat :=
  let first := digits.take 9
  if first.all Char.isDigit then
    digitsValue 10 (first ++ List.replicate (9 - first.length) '0')
  else 0

/-- The nanoseconds of the fraction at the start of a text, zero if there is none, and the rest. -/
def splitFraction : List Char → Nat × List Char
  | '.' :: rest => (nanoseconds (rest.takeWhile Text.isDecimalDigit),
      rest.dropWhile Text.isDecimalDigit)
  | text => (0, text)

/-- The time of day at the start of a text, and the rest of the text. -/
def clock? (text : List Char) : Option (Clock × List Char) := do
  let (hour, text) ← digitRun? 1 2 text
  let text ← after? ':' text
  let (minute, text) ← digitRun? 2 2 text
  let text ← after? ':' text
  let (second, text) ← digitRun? 2 2 text
  let (nanosecond, text) := splitFraction text
  if second = 60 then none
  let clock ← Clock.of? hour minute second nanosecond
  return (clock, text)

/-- The number of bytes that a text takes. -/
def byteSize (text : List Char) : Nat :=
  (String.ofList text).utf8ByteSize

/-- A text divided after the given number of bytes, unless that is inside a character. -/
def splitAtByte? : (count : Nat) → List Char → Option (List Char × List Char)
  | 0, text => some ([], text)
  | _ + 1, [] => none
  | count + 1, c :: text =>
    if c.utf8Size ≤ count + 1 then
      (splitAtByte? (count + 1 - c.utf8Size) text).map fun (first, rest) => (c :: first, rest)
    else none

/-- The hours and minutes of a zone without its sign: one or two digits, and two more that may
follow a colon. -/
def zoneDigits? (text : List Char) : Option (List Char) :=
  let hours := text.takeWhile Text.isDecimalDigit
  match text.dropWhile Text.isDecimalDigit with
  | [] => if 1 ≤ hours.length && hours.length ≤ 4 then some hours else none
  | ':' :: minutes =>
    if 1 ≤ hours.length && hours.length ≤ 2 && minutes.length = 2 &&
        minutes.all Text.isDecimalDigit then
      some (hours ++ minutes)
    else none
  | _ => none

/-- The offset of so many hours and minutes to the east, or to the west. -/
def offset? (west : Bool) (hours minutes : Nat) : Option Offset :=
  let distance : Int := hours * 3600 + minutes * 60
  Offset.of? (if west then -distance else distance)

/-- The offset denoted by the digits of a zone. -/
def zoneOffset? (west : Bool) (digits : List Char) : Except ZoneFault (Option Offset) :=
  let size := byteSize digits
  if size ≤ 2 then
    .ok ((readDigits? 10 digits).bind fun hours => offset? west hours 0)
  else if size ≤ 4 then
    match splitAtByte? (size - 2) digits with
    | none => .error ⟨digits⟩
    | some (hours, minutes) =>
      .ok ((readDigits? 10 hours).bind fun h =>
        (readDigits? 10 minutes).bind fun m => offset? west h m)
  else .ok none

/-- What the end of a date and time says about its zone. -/
inductive ZoneText
  /-- There is no zone. -/
  | absent
  /-- The zone is universal time. -/
  | universal
  /-- The zone is a distance to the east or to the west, given by its digits. -/
  | distance (west : Bool) (digits : List Char)
deriving DecidableEq

/-- The zone spelled by the whole of a text. -/
def zoneText? : List Char → Option ZoneText
  | [] => some .absent
  | ['Z'] => some .universal
  | '+' :: digits => (zoneDigits? digits).map (.distance false)
  | '-' :: digits => (zoneDigits? digits).map (.distance true)
  | _ => none

/-- The date and time that a text spells, if it spells one. -/
def dateTime? (text : List Char) : Except ZoneFault (Option DateTime) :=
  match date? text with
  | none => .ok none
  | some (date, []) => .ok (some ⟨date, .midnight, none⟩)
  | some (date, text) =>
    match (afterSeparator? text).bind clock? with
    | none => .ok none
    | some (clock, text) =>
      match zoneText? (text.dropWhile (· = ' ')) with
      | none => .ok none
      | some .absent => .ok (some ⟨date, clock, none⟩)
      | some .universal => .ok (some ⟨date, clock, Offset.of? 0⟩)
      | some (.distance west digits) =>
        (zoneOffset? west digits).map fun offset =>
          offset.map fun offset => ⟨date, clock, some offset⟩

end NeonAudit.Literal
