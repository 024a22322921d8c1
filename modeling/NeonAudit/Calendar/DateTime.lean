/-!
# Days, times of day and offsets

A date is a day of the Gregorian calendar extended to all years. The bounds of its month and day,
and those of the time of day and of the offset, are part of the types, so that a value of one of
them always names something.
-/

namespace NeonAudit

/-- Every fourth year is a leap year, except the hundredth ones that are not four-hundredth ones. -/
def isLeapYear (year : Int) : Bool :=
  year % 4 = 0 && (year % 100 ≠ 0 || year % 400 = 0)

/-- The length of a month; there are no days in a month that does not exist. -/
def daysInMonth (year : Int) : (month : Nat) → Nat
  | 2 => if isLeapYear year then 29 else 28
  | 4 | 6 | 9 | 11 => 30
  | 1 | 3 | 5 | 7 | 8 | 10 | 12 => 31
  | _ => 0

/-- A day of the calendar. -/
structure Date where
  /-- The year; the year zero precedes the year one. -/
  year : Int
  /-- The month, from one to twelve. -/
  month : Nat
  /-- The day of the month, counted from one. -/
  day : Nat
  /-- The month has such a day. -/
  isDay : 1 ≤ day ∧ day ≤ daysInMonth year month
deriving DecidableEq

/-- A time of day to the nanosecond. -/
structure Clock where
  /-- Hours since midnight. -/
  hour : Nat
  /-- Minutes of the hour. -/
  minute : Nat
  /-- Seconds of the minute; sixty names a leap second, which no literal spells. -/
  second : Nat
  /-- Nanoseconds of the second. -/
  nanosecond : Nat
  /-- No part reaches the next larger one. -/
  inRange : hour < 24 ∧ minute < 60 ∧ second ≤ 60 ∧ nanosecond < 1000000000
deriving DecidableEq

/-- A distance from universal time of less than one day. -/
structure Offset where
  /-- Seconds east of universal time. -/
  seconds : Int
  /-- The distance is less than one day. -/
  inDay : -86400 < seconds ∧ seconds < 86400
deriving DecidableEq

/-- A wall clock reading with an optional offset from universal time. -/
structure DateTime where
  /-- The day on the calendar. -/
  date : Date
  /-- The time on the clock. -/
  clock : Clock
  /-- The offset, where one is given. -/
  offset : Option Offset
deriving DecidableEq

/-- The day with the given year, month and day of the month, if there is one. -/
def Date.of? (year : Int) (month day : Nat) : Option Date :=
  if h : 1 ≤ day ∧ day ≤ daysInMonth year month then some ⟨year, month, day, h⟩ else none

/-- The time of day with the given parts, if they are in range. -/
def Clock.of? (hour minute second nanosecond : Nat) : Option Clock :=
  if h : hour < 24 ∧ minute < 60 ∧ second ≤ 60 ∧ nanosecond < 1000000000 then
    some ⟨hour, minute, second, nanosecond, h⟩
  else none

/-- The offset of the given number of seconds, if that is less than a day. -/
def Offset.of? (seconds : Int) : Option Offset :=
  if h : -86400 < seconds ∧ seconds < 86400 then some ⟨seconds, h⟩ else none

/-- The first instant of a day. -/
def Clock.midnight : Clock :=
  ⟨0, 0, 0, 0, by decide⟩

/-- Only the twelve months have days. -/
theorem month_of_daysInMonth_pos {year : Int} {month : Nat} (h : 0 < daysInMonth year month) :
    1 ≤ month ∧ month ≤ 12 := by
  unfold daysInMonth at h
  split at h <;> omega

/-- No month is longer than thirty-one days. -/
theorem daysInMonth_le (year : Int) (month : Nat) : daysInMonth year month ≤ 31 := by
  unfold daysInMonth
  repeat' split
  all_goals omega

/-- The month of a date is one of the twelve. -/
theorem Date.month_bounds (d : Date) : 1 ≤ d.month ∧ d.month ≤ 12 :=
  have h : 0 < daysInMonth d.year d.month := Nat.lt_of_lt_of_le d.isDay.1 d.isDay.2
  month_of_daysInMonth_pos h

end NeonAudit
