import JobPipeline.Calendar.Moment
import JobPipeline.Text.Blank

/-
Points in time.

A timestamp counts seconds in universal time from the beginning of 1970.  It is
written as date and time, and read with some freedom: parts may be short of
their width, blanks may stand between them, and the offset may be any within a
day.
-/
namespace JobPipeline

structure Timestamp where
  seconds : Int
  /-- Beyond a billion within a leap second. -/
  nanosecond : Nat
deriving DecidableEq, Repr, Inhabited

namespace Timestamp

/-- Days from the beginning of 1970 to a date.  Years begin in March here, so
that a leap day is the last of its year. -/
def dayNumber (year : Int) (month day : Nat) : Int :=
  let y := if month ≤ 2 then year - 1 else year
  let dayOfYear : Int := (153 * ((month + 9) % 12) + 2) / 5 + day - 1
  365 * y + y / 4 - y / 100 + y / 400 + dayOfYear - 719468

/-- The date of a day: year, month and day. -/
def dateOf (days : Int) : Int × Nat × Nat :=
  let z := days + 719468
  let era := z / 146097
  let dayOfEra := (z % 146097).toNat
  let year := (dayOfEra - dayOfEra / 1460 + dayOfEra / 36524 - dayOfEra / 146096) / 365
  let dayOfYear := dayOfEra - (365 * year + year / 4 - year / 100)
  let march := (5 * dayOfYear + 2) / 153
  let day := dayOfYear - (153 * march + 2) / 5 + 1
  let month := if march < 10 then march + 3 else march - 9
  (year + 400 * era + (if month ≤ 2 then 1 else 0), month, day)

open Calendar (padded after?)

/-- A year of four digits, with its sign if it has not that many. -/
def yearText (year : Int) : List Char :=
  if 0 ≤ year ∧ year ≤ 9999 then padded 4 year.toNat
  else (if year < 0 then '-' else '+') :: padded 4 year.natAbs

/-- The part of a second in as many groups of three digits as it takes. -/
def fractionText (nanosecond : Nat) : List Char :=
  if nanosecond = 0 then []
  else if nanosecond % 1000000 = 0 then '.' :: padded 3 (nanosecond / 1000000)
  else if nanosecond % 1000 = 0 then '.' :: padded 6 (nanosecond / 1000)
  else '.' :: padded 9 nanosecond

/-- Date and time, without the mark of universal time. -/
def dateAndTime (t : Timestamp) : List Char :=
  let (year, month, day) := dateOf (t.seconds / 86400)
  let second := (t.seconds % 86400).toNat
  let leap := t.nanosecond / 1000000000
  yearText year ++ '-' :: padded 2 month ++ '-' :: padded 2 day ++
    'T' :: padded 2 (second / 3600) ++ ':' :: padded 2 (second / 60 % 60) ++
    ':' :: padded 2 (second % 60 + leap) ++ fractionText (t.nanosecond % 1000000000)

/-- The form in stored specs. -/
def text (t : Timestamp) : String := String.ofList (t.dateAndTime ++ ['Z'])

/-- The form in listings. -/
def offsetText (t : Timestamp) : String := String.ofList (t.dateAndTime ++ "+00:00".toList)

/-- A number of at most so many digits behind blanks. -/
def number? (places : Nat) (cs : List Char) : Option (Nat × List Char) :=
  let cs := Text.trimStart cs
  let ds := (cs.take places).takeWhile Char.isDigit
  if ds = [] then none else some (Numeral.ofDigits ds, cs.drop ds.length)

def mark? (c : Char) (cs : List Char) : Option (List Char) := after? c (Text.trimStart cs)

/-- A year, which has any number of digits behind a sign. -/
def year? (cs : List Char) : Option (Int × List Char) :=
  let unsigned := fun (cs : List Char) =>
    match cs.takeWhile Char.isDigit with
    | [] => none
    | ds => some (Numeral.ofDigits ds, cs.dropWhile Char.isDigit)
  match Text.trimStart cs with
  | '-' :: cs => (unsigned cs).map fun (n, rest) => (-(n : Int), rest)
  | '+' :: cs => (unsigned cs).map fun (n, rest) => ((n : Int), rest)
  | cs => (number? 4 cs).map fun (n, rest) => ((n : Int), rest)

/-- The years that a date may have. -/
def isYear (year : Int) : Bool := -262143 ≤ year && year ≤ 262142

def isDate (year : Int) (month day : Nat) : Bool :=
  isYear year && 1 ≤ month && month ≤ 12 && 1 ≤ day &&
    day ≤ Calendar.Date.daysOf (year % 400).toNat month

/-- Seconds ahead of universal time. -/
def zone? (cs : List Char) : Option (Int × List Char) :=
  if String.ofList (Text.lowerAscii (cs.take 3)) = "utc" then some (0, cs.drop 3)
  else match cs with
    | [] => none
    | sign :: cs =>
      if sign = 'Z' ∨ sign = 'z' then some (0, cs)
      else if sign = '+' ∨ sign = '-' ∨ sign.toNat = 0x2212 then do
        let (hours, cs) ← Calendar.fixed? 2 cs
        let cs := cs.dropWhile fun c => c == ':' || Text.isBlank c
        let (minutes, cs) ← Calendar.fixed? 2 cs
        if hours ≤ 23 ∧ minutes ≤ 59 then
          let size : Int := 3600 * hours + 60 * minutes
          return (if sign = '+' then size else -size, cs)
        else none
      else none

def ofText? (s : String) : Option Timestamp := do
  let (year, cs) ← year? s.toList
  let cs ← mark? '-' cs
  let (month, cs) ← number? 2 cs
  let cs ← mark? '-' cs
  let (day, cs) ← number? 2 cs
  let cs ← (after? 'T' cs).or ((after? 't' cs).or (after? ' ' cs))
  let (hour, cs) ← number? 2 cs
  let cs ← mark? ':' cs
  let (minute, cs) ← number? 2 cs
  let cs ← mark? ':' cs
  let (second, cs) ← number? 2 cs
  let (nanosecond, cs) ← Calendar.fraction? cs
  let (ahead, cs) ← zone? (Text.trimStart cs)
  let seconds :=
    86400 * dayNumber year month day + 3600 * hour + 60 * minute + min second 59 - ahead
  if isDate year month day ∧ isYear (dateOf (seconds / 86400)).1 ∧ hour ≤ 23 ∧ minute ≤ 59 ∧
      second ≤ 60 ∧ cs.all Text.isBlank then
    return ⟨seconds, nanosecond + (if second = 60 then 1000000000 else 0)⟩
  else none

end Timestamp
end JobPipeline
