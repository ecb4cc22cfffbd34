import JobPipeline.Number.Numeral

/-
Dates and times.

A moment is a date, a time of day, or both, then perhaps with the offset from
universal time.  Reading checks every part against the calendar; a minute may
have a leap second.
-/
namespace JobPipeline
namespace Calendar

structure Date where
  year : Nat
  month : Nat
  day : Nat
deriving DecidableEq, Repr

structure Time where
  hour : Nat
  minute : Nat
  second : Nat
  nanosecond : Nat
deriving DecidableEq, Repr

inductive Offset where
  | universal
  /-- Minutes ahead of universal time. -/
  | ahead (minutes : Int)
deriving DecidableEq, Repr

inductive Moment where
  | date (d : Date)
  | time (t : Time)
  | both (d : Date) (t : Time) (offset : Option Offset)
deriving DecidableEq, Repr

namespace Date

def isLeapYear (year : Nat) : Bool := year % 4 == 0 && (year % 100 != 0 || year % 400 == 0)

def daysOf (year month : Nat) : Nat :=
  if month = 2 then if isLeapYear year then 29 else 28
  else if month = 4 ∨ month = 6 ∨ month = 9 ∨ month = 11 then 30
  else 31

end Date

/-- A number of exactly so many digits at the start of a text. -/
def fixed? (places : Nat) (cs : List Char) : Option (Nat × List Char) :=
  let ds := cs.take places
  if ds.length = places ∧ ds.all Char.isDigit then some (Numeral.ofDigits ds, cs.drop places)
  else none

def after? (c : Char) : List Char → Option (List Char)
  | d :: rest => if d = c then some rest else none
  | [] => none

def date? (cs : List Char) : Option (Date × List Char) := do
  let (year, cs) ← fixed? 4 cs
  let cs ← after? '-' cs
  let (month, cs) ← fixed? 2 cs
  let cs ← after? '-' cs
  let (day, cs) ← fixed? 2 cs
  if 1 ≤ month ∧ month ≤ 12 ∧ 1 ≤ day ∧ day ≤ Date.daysOf year month then
    return (⟨year, month, day⟩, cs)
  else none

/-- Digits behind the point of a second, as nanoseconds; digits beyond the ninth
do not count. -/
def nanoseconds (ds : List Char) : Nat :=
  Numeral.ofDigits ((ds ++ List.replicate 9 '0').take 9)

def fraction? : List Char → Option (Nat × List Char)
  | '.' :: rest =>
    match rest.takeWhile Char.isDigit with
    | [] => none
    | ds => some (nanoseconds ds, rest.dropWhile Char.isDigit)
  | cs => some (0, cs)

def time? (cs : List Char) : Option (Time × List Char) := do
  let (hour, cs) ← fixed? 2 cs
  let cs ← after? ':' cs
  let (minute, cs) ← fixed? 2 cs
  let cs ← after? ':' cs
  let (second, cs) ← fixed? 2 cs
  let (nanosecond, cs) ← fraction? cs
  if hour ≤ 23 ∧ minute ≤ 59 ∧ second ≤ 60 then return (⟨hour, minute, second, nanosecond⟩, cs)
  else none

def offset? : List Char → Option (Offset × List Char)
  | [] => none
  | c :: cs =>
    if c = 'Z' ∨ c = 'z' then some (.universal, cs)
    else if c = '+' ∨ c = '-' then do
      let (hours, cs) ← fixed? 2 cs
      let cs ← after? ':' cs
      let (minutes, cs) ← fixed? 2 cs
      let size : Int := 60 * hours + minutes
      if hours ≤ 23 ∧ minutes ≤ 59 then return (.ahead (if c = '-' then -size else size), cs)
      else none
    else none

/-- What stands between a date and a time. -/
def isDivider (c : Char) : Bool := c == 'T' || c == 't' || c == ' '

def moment? (cs : List Char) : Option (Moment × List Char) :=
  match date? cs with
  | none => (time? cs).map fun (t, rest) => (.time t, rest)
  | some (d, rest) =>
    match rest with
    | [] => some (.date d, [])
    | c :: more =>
      match if isDivider c then time? more else none with
      | none => some (.date d, rest)
      | some (t, rest) =>
        match offset? rest with
        | none => some (.both d t none, rest)
        | some (o, rest) => some (.both d t (some o), rest)

/-- An offset of up to a day, whose minutes may be any two digits. -/
def wideOffset? : List Char → Option (Offset × List Char)
  | [] => none
  | c :: cs =>
    if c = 'Z' ∨ c = 'z' then some (.universal, cs)
    else if c = '+' ∨ c = '-' then do
      let (hours, cs) ← fixed? 2 cs
      let cs ← after? ':' cs
      let (minutes, cs) ← fixed? 2 cs
      let size := 60 * hours + minutes
      if size ≤ 1440 then return (.ahead (if c = '-' then -(size : Int) else size), cs) else none
    else none

def Moment.ofText? (cs : List Char) : Option Moment :=
  match date? cs with
  | none =>
    match time? cs with
    | some (t, []) => some (.time t)
    | _ => none
  | some (d, []) => some (.date d)
  | some (d, c :: more) =>
    match if isDivider c then time? more else none with
    | none => none
    | some (t, []) => some (.both d t none)
    | some (t, rest) =>
      match wideOffset? rest with
      | some (o, []) => some (.both d t (some o))
      | _ => none

/-- A number with leading zeros up to a width. -/
def padded (places n : Nat) : List Char :=
  let ds := Nat.toDigits 10 n
  List.replicate (places - ds.length) '0' ++ ds

def Date.text (d : Date) : List Char :=
  padded 4 d.year ++ '-' :: padded 2 d.month ++ '-' :: padded 2 d.day

def Time.text (t : Time) : List Char :=
  let whole := padded 2 t.hour ++ ':' :: padded 2 t.minute ++ ':' :: padded 2 t.second
  if t.nanosecond = 0 then whole
  else whole ++ '.' :: ((padded 9 t.nanosecond).reverse.dropWhile (· == '0')).reverse

def Offset.text : Offset → List Char
  | .universal => ['Z']
  | .ahead minutes =>
    (if minutes < 0 then '-' else '+') ::
      padded 2 (minutes.natAbs / 60) ++ ':' :: padded 2 (minutes.natAbs % 60)

def Moment.text : Moment → List Char
  | .date d => d.text
  | .time t => t.text
  | .both d t offset => d.text ++ 'T' :: t.text ++ (offset.map Offset.text).getD []

end Calendar
end JobPipeline
