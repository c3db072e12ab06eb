import InvariantInference.Text.Padded

/-!
# Dates and times

A moment is a calendar date, a time of day, or both, with the distance from
universal time where it is known. It has one text, however it was written.
-/

namespace InvariantInference.Toml

/-- A calendar date. -/
structure Date where
  year : Nat
  month : Nat
  day : Nat
  deriving DecidableEq, Repr

namespace Date

/-- The number of days in a month. -/
def daysIn (year month : Nat) : Nat :=
  if month = 2 then
    if year % 4 = 0 ∧ (year % 100 ≠ 0 ∨ year % 400 = 0) then 29 else 28
  else if month = 4 ∨ month = 6 ∨ month = 9 ∨ month = 11 then 30
  else 31

/-- Year, month and day, in four, two and two digits. -/
def render (d : Date) : String :=
  Text.padded 4 d.year ++ "-" ++ Text.padded 2 d.month ++ "-" ++ Text.padded 2 d.day

end Date

/-- A time of day. -/
structure Time where
  hour : Nat
  minute : Nat
  second : Nat
  nanosecond : Nat
  deriving DecidableEq, Repr

namespace Time

/-- Hour, minute and second, and the part of a second if there is one. -/
def render (t : Time) : String :=
  let whole := Text.padded 2 t.hour ++ ":" ++ Text.padded 2 t.minute ++ ":" ++
    Text.padded 2 t.second
  if t.nanosecond = 0 then whole
  else whole ++ "." ++ Text.dropTrailingZeros (Text.padded 9 t.nanosecond)

end Time

/-- The distance of a local time from universal time. -/
inductive Offset where
  | universal
  | minutes (east : Int)
  deriving DecidableEq, Repr

namespace Offset

/-- The letter of universal time, or a sign, hours and minutes. -/
def render : Offset → String
  | universal => "Z"
  | minutes east =>
    (if east < 0 then "-" else "+") ++ Text.padded 2 (east.natAbs / 60) ++ ":" ++
      Text.padded 2 (east.natAbs % 60)

end Offset

/-- A date, a time, or a date with a time and perhaps an offset. -/
inductive Moment where
  | date (date : Date)
  | time (time : Time)
  | dateTime (date : Date) (time : Time) (offset : Option Offset)
  deriving DecidableEq, Repr

namespace Moment

/-- The text of a moment. -/
def render : Moment → String
  | date d => d.render
  | time t => t.render
  | dateTime d t offset => d.render ++ "T" ++ t.render ++ (offset.map Offset.render).getD ""

end Moment

end InvariantInference.Toml
