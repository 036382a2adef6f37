import Reckoner.Number.Decimal
import Reckoner.Number.Double
import Reckoner.Number.Layout

/-!
# Reckoner.Moment — points in time and lengths of time

A moment is a whole number of seconds since 1970, in UTC; the year one starts the calendar, and its
first moment stands for "no time". A span is a whole number of nanoseconds.
-/

namespace Reckoner

/-- A moment: seconds since the start of 1970. -/
structure Moment where
  seconds : Int
  deriving DecidableEq, Repr

namespace Moment

/-- The first moment of the year one, which stands for "no time". -/
def zero : Moment := ⟨-62135596800⟩

/-- A calendar date. -/
structure Date where
  year : Int
  month : Nat
  day : Nat
  deriving DecidableEq, Repr

/-- The date that is `days` days after the first of January 1970. Years are counted from March, so
that a leap day is the last one of its year, and in cycles of 400 years. -/
def dateOfDays (days : Int) : Date :=
  let shifted := days + 719468
  let cycle := shifted.fdiv 146097
  let dayOfCycle := (shifted - cycle * 146097).toNat
  let yearOfCycle :=
    (dayOfCycle - dayOfCycle / 1460 + dayOfCycle / 36524 - dayOfCycle / 146096) / 365
  let dayOfYear := dayOfCycle - (365 * yearOfCycle + yearOfCycle / 4 - yearOfCycle / 100)
  let monthFromMarch := (5 * dayOfYear + 2) / 153
  let month := if monthFromMarch < 10 then monthFromMarch + 3 else monthFromMarch - 9
  { year := yearOfCycle + cycle * 400 + (if month ≤ 2 then 1 else 0)
    month
    day := dayOfYear - (153 * monthFromMarch + 2) / 5 + 1 }

/-- Clocks count 64 bits of seconds from the start of the year -292277022399 and then start over. -/
def wrapped (m : Moment) : Int :=
  let offset : Int := 9223372028715321600
  (m.seconds + offset).emod (Int.pow 2 64) - offset

/-- The date of a moment. -/
def date (m : Moment) : Date := dateOfDays (m.wrapped.fdiv 86400)

/-- The seconds since midnight. -/
def secondOfDay (m : Moment) : Nat := (m.wrapped.fmod 86400).toNat

/-- A number in at least `width` digits, behind a sign if it is negative. -/
def padded (width : Nat) (n : Int) : Bytes :=
  let digits := Bytes.padLeft width (byte '0') (Number.decimal n.natAbs)
  if n < 0 then byte '-' :: digits else digits

/-- The date, as in `2023-11-14`. -/
def dateText (m : Moment) : Bytes :=
  padded 4 m.date.year ++ byte '-' :: padded 2 m.date.month ++ byte '-' :: padded 2 m.date.day

/-- The time of day, as in `22:13:20`. -/
def clockText (m : Moment) : Bytes :=
  let s := m.secondOfDay
  padded 2 (s / 3600 : Nat) ++ byte ':' :: padded 2 (s / 60 % 60 : Nat)
    ++ byte ':' :: padded 2 (s % 60 : Nat)

/-- Date and time for machines, as in `2023-11-14T22:13:20Z`. -/
def stamp (m : Moment) : Bytes := m.dateText ++ byte 'T' :: m.clockText ++ utf8 "Z"

/-- Date and time for readers; a dash for no time. -/
def text (m : Moment) : Bytes :=
  if m = zero then utf8 "-" else m.dateText ++ byte ' ' :: m.clockText

/-- How long ago something was, for readers. -/
def ago (seconds : Int) : Bytes :=
  let count (n : Int) (unit : String) : Bytes :=
    if n = 1 then utf8 "1 " ++ utf8 unit ++ utf8 " ago"
    else Number.decimalInt n ++ byte ' ' :: utf8 unit ++ utf8 "s ago"
  if seconds < 60 then utf8 "just now"
  else if seconds < 3600 then count (seconds / 60) "minute"
  else if seconds < 86400 then count (seconds / 3600) "hour"
  else count (seconds / 86400) "day"

end Moment

/-- A span: nanoseconds. -/
structure Span where
  nanoseconds : Int
  deriving DecidableEq, Repr

namespace Span

/-- The places of a fraction of `10 ^ places`, with the point; trailing zeros are dropped, and a
fraction of zero is nothing. -/
def fraction (places n : Nat) : Bytes :=
  let digits := Bytes.padLeft places (byte '0') (Number.decimal n)
  let kept := (digits.reverse.dropWhile (· = byte '0')).reverse
  if kept.isEmpty || n = 0 then [] else byte '.' :: kept

/-- The span in the largest fitting units, as in `1h1m1.5s`, `1.5ms` or `0s`. -/
def text (d : Span) : Bytes :=
  let n := d.nanoseconds.natAbs
  let sign := if d.nanoseconds < 0 then utf8 "-" else []
  sign ++
    if n = 0 then utf8 "0s"
    else if n < 1000 then Number.decimal n ++ utf8 "ns"
    else if n < 1000000 then Number.decimal (n / 1000) ++ fraction 3 (n % 1000) ++ utf8 "µs"
    else if n < 1000000000 then
      Number.decimal (n / 1000000) ++ fraction 6 (n % 1000000) ++ utf8 "ms"
    else
      let seconds := n / 1000000000
      let tail := Number.decimal (seconds % 60) ++ fraction 9 (n % 1000000000) ++ utf8 "s"
      let minutes := seconds / 60
      if minutes = 0 then tail
      else if minutes < 60 then Number.decimal minutes ++ utf8 "m" ++ tail
      else Number.decimal (minutes / 60) ++ utf8 "h" ++ Number.decimal (minutes % 60) ++ utf8 "m"
        ++ tail

/-- The span in seconds as a double: the whole seconds and the rest are converted on their own. -/
def seconds (d : Span) : Float :=
  let whole := d.nanoseconds.tdiv 1000000000
  let rest := d.nanoseconds.tmod 1000000000
  Float.ofInt whole + Float.ofInt rest / 1e9

/-- The span in one unit for readers: whole micro- or milliseconds, or tenths of seconds. -/
def brief (d : Span) : Bytes :=
  if d.nanoseconds < 1000000 then Number.decimalInt (d.nanoseconds.tdiv 1000) ++ utf8 "µs"
  else if d.nanoseconds < 1000000000 then
    Number.decimalInt (d.nanoseconds.tdiv 1000000) ++ utf8 "ms"
  else Number.fixed 1 d.seconds ++ utf8 "s"

end Span

end Reckoner
