import NeonAudit.Calendar.DateTime
import NeonAudit.Number.Digits

/-!
# The text of a date and time

A date is written year first with four, two and two digits, a time with two digits each for its
hour, minute and second. The fraction of the second is left out when it is zero and otherwise has
three, six or nine digits, the fewest that are exact. An offset follows after a space.
-/

namespace NeonAudit

/-- A year of the first ten thousand has four digits, and any other also a sign. -/
def yearText (year : Int) : List Char :=
  if year < 0 then '-' :: paddedText 4 year.natAbs
  else if year ≤ 9999 then paddedText 4 year.natAbs
  else '+' :: paddedText 4 year.natAbs

/-- A date with hyphens between its parts. -/
def Date.text (d : Date) : List Char :=
  yearText d.year ++ '-' :: paddedText 2 d.month ++ '-' :: paddedText 2 d.day

/-- The fraction of a second with as many groups of three digits as it needs. -/
def fractionText (nanosecond : Nat) : List Char :=
  if nanosecond = 0 then []
  else if nanosecond % 1000000 = 0 then '.' :: paddedText 3 (nanosecond / 1000000)
  else if nanosecond % 1000 = 0 then '.' :: paddedText 6 (nanosecond / 1000)
  else '.' :: paddedText 9 nanosecond

/-- A time of day with colons between its parts. -/
def Clock.text (c : Clock) : List Char :=
  paddedText 2 c.hour ++ ':' :: paddedText 2 c.minute ++ ':' :: paddedText 2 c.second ++
    fractionText c.nanosecond

/-- An offset with its sign, its hours and minutes, and its seconds unless they are zero. -/
def Offset.text (o : Offset) : List Char :=
  let distance := o.seconds.natAbs
  let seconds := if distance % 60 = 0 then [] else ':' :: paddedText 2 (distance % 60)
  (if o.seconds < 0 then '-' else '+') ::
    paddedText 2 (distance / 3600) ++ ':' :: paddedText 2 (distance / 60 % 60) ++ seconds

/-- A date and time with its offset, if it has one. -/
def DateTime.text (d : DateTime) : List Char :=
  d.date.text ++ ' ' :: d.clock.text ++ (d.offset.elim [] fun o => ' ' :: o.text)

end NeonAudit
