import SchemaForge.Number.Digits
import SchemaForge.Text.Joining

/-!
# Dates and times

A date of the Gregorian calendar, with or without a time of day; a time of day may lie at an
offset from universal time. YAML documents hold such values.
-/

namespace SchemaForge

/-- A time of day to the microsecond. -/
structure Clock where
  /-- The hour, from 0 to 23. -/
  hour : Nat
  /-- The minute, from 0 to 59. -/
  minute : Nat
  /-- The second, from 0 to 59. -/
  second : Nat
  /-- The microsecond. -/
  microsecond : Nat
  /-- Seconds ahead of universal time, where that is known. -/
  offset : Option Int
  deriving DecidableEq

/-- A date, and perhaps a time of day. -/
structure Timestamp where
  /-- The year, from 1 to 9999. -/
  year : Nat
  /-- The month, from 1 to 12. -/
  month : Nat
  /-- The day of the month, from 1. -/
  day : Nat
  /-- The time of day. -/
  clock : Option Clock
  deriving DecidableEq

namespace Timestamp

/-- A leap year of the Gregorian calendar. -/
def isLeap (year : Nat) : Bool := year % 4 == 0 && (year % 100 != 0 || year % 400 == 0)

/-- The number of days of a month. -/
def daysIn (year month : Nat) : Nat :=
  if month = 2 then (if isLeap year then 29 else 28)
  else if month = 4 ∨ month = 6 ∨ month = 9 ∨ month = 11 then 30 else 31

/-- Whether the fields name a day that exists (`daysIn`) and a time that a clock shows, at less than
a day from universal time. -/
def isValid (t : Timestamp) : Bool :=
  1 ≤ t.year && t.year ≤ 9999 && 1 ≤ t.month && t.month ≤ 12 && 1 ≤ t.day
    && t.day ≤ daysIn t.year t.month
    && match t.clock with
      | none => true
      | some c => c.hour < 24 && c.minute < 60 && c.second < 60 && c.microsecond < 1000000
        && match c.offset with
          | none => true
          | some o => o.natAbs < 86400

/-- The number of days of a year before a month. -/
def daysBefore (year month : Nat) : Nat :=
  ((List.range month).drop 1).foldl (fun days m => days + daysIn year m) 0

/-- The number of days from the start of the year 1 to a date, with the leap days of the years
before it. -/
def dayNumber (t : Timestamp) : Nat :=
  let years := t.year - 1
  365 * years + years / 4 - years / 100 + years / 400 + daysBefore t.year t.month + t.day

/-- The instant of a time whose offset is known, in microseconds of universal time. A date has none,
and neither has a time without an offset. -/
def instant? (t : Timestamp) : Option Int := do
  let clock ← t.clock
  let offset ← clock.offset
  let seconds := 86400 * t.dayNumber + 3600 * clock.hour + 60 * clock.minute + clock.second
  return 1000000 * ((seconds : Int) - offset) + clock.microsecond

/-- Equality of dates and times: times whose offsets are known are equal at the same `instant?`, and
all others if they have the same fields. -/
def agrees (a b : Timestamp) : Bool :=
  match a.instant?, b.instant? with
  | some m, some n => m == n
  | _, _ => decide (a = b)

/-- The kind of the value in messages. -/
def kindName (t : Timestamp) : String := if t.clock.isSome then "datetime" else "date"

/-- The numbers of a time of day, with zeros at the end left out after the minute. -/
def clockFields (c : Clock) : List Nat :=
  [c.hour, c.minute]
    ++ if c.microsecond ≠ 0 then [c.second, c.microsecond]
       else if c.second ≠ 0 then [c.second] else []

/-- An offset from universal time as messages show it. -/
def offsetDisplay (o : Int) : String :=
  if o = 0 then "datetime.timezone.utc"
  else
    -- An offset is shown as days and seconds, of which only the days may be negative.
    let days := o.fdiv 86400
    let seconds := o.fmod 86400
    let parts := (if days = 0 then [] else ["days=" ++ Number.intText days])
      ++ if seconds = 0 then [] else ["seconds=" ++ Number.intText seconds]
    "datetime.timezone(datetime.timedelta(" ++ Text.join ", " parts ++ "))"

/-- The form of a date or time in messages, which names its fields as `clockFields` gives them. -/
def display (t : Timestamp) : String :=
  let date := [t.year, t.month, t.day]
  let numbers (ns : List Nat) := Text.join ", " (ns.map fun n => Number.padded 1 n)
  match t.clock with
  | none => "datetime.date(" ++ numbers date ++ ")"
  | some c =>
    "datetime.datetime(" ++ numbers (date ++ clockFields c)
      ++ (match c.offset with
        | none => ""
        | some o => ", tzinfo=" ++ offsetDisplay o)
      ++ ")"

/-- The plain text of a date or time, as in a calendar: with fixed widths, and with the offset in
hours and minutes where it is known. -/
def text (t : Timestamp) : String :=
  let two (n : Nat) := Number.padded 2 n
  let date := Number.padded 4 t.year ++ "-" ++ two t.month ++ "-" ++ two t.day
  match t.clock with
  | none => date
  | some c =>
    date ++ " " ++ two c.hour ++ ":" ++ two c.minute ++ ":" ++ two c.second
      ++ (if c.microsecond = 0 then "" else "." ++ Number.padded 6 c.microsecond)
      ++ match c.offset with
        | none => ""
        | some o =>
          let n := o.natAbs
          (if o < 0 then "-" else "+") ++ two (n / 3600) ++ ":" ++ two (n / 60 % 60)

end Timestamp

end SchemaForge
