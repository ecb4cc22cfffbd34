import JobPipeline.Number.Binary64
import JobPipeline.Text.Segment

/-
Numbers written by hand in a field or a preamble.

Whole numbers take an optional sign and any count of digits, leading zeros
included, and are refused outside their range.  Decimal numbers may leave out
the digits on one side of the point, and the words for infinity and not-a-number
are read in any case of letters.
-/
namespace JobPipeline
namespace Numeral

def digitValue (c : Char) : Nat := c.toNat - '0'.toNat

/-- The number that a run of decimal digits denotes. -/
def ofDigits (ds : List Char) : Nat := ds.foldl (fun n c => 10 * n + digitValue c) 0

def digits? (cs : List Char) : Option Nat :=
  if cs ≠ [] ∧ cs.all Char.isDigit then some (ofDigits cs) else none

def hexValue? (c : Char) : Option Nat :=
  if c.isDigit then some (c.toNat - '0'.toNat)
  else if 'a' ≤ c ∧ c ≤ 'f' then some (c.toNat - 'a'.toNat + 10)
  else if 'A' ≤ c ∧ c ≤ 'F' then some (c.toNat - 'A'.toNat + 10)
  else none

/-- The number that a run of hexadecimal digits denotes. -/
def hexNumber? (cs : List Char) : Option Nat :=
  cs.foldl (fun n c => n.bind fun n => (hexValue? c).map (16 * n + ·)) (some 0)

/-- A whole number of at most `most`, with an optional plus sign. -/
def natural? (most : Nat) (s : String) : Option Nat :=
  let ds := match s.toList with
    | '+' :: cs => cs
    | cs => cs
  (digits? ds).filter (· ≤ most)

def most64 : Nat := twoTo 64 - 1

/-- A whole number of 64 bits with a sign. -/
def integer? (s : String) : Option Int :=
  match s.toList with
  | '-' :: cs => ((digits? cs).filter (· ≤ twoTo 63)).map fun n => -(n : Int)
  | '+' :: cs => ((digits? cs).filter (· < twoTo 63)).map fun n => (n : Int)
  | cs => ((digits? cs).filter (· < twoTo 63)).map fun n => (n : Int)

/-- What a decimal text denotes. -/
inductive Decimal where
  | number (x : Binary64)
  | notANumber
deriving DecidableEq, Repr

/-- The exponent part of a decimal: nothing, or `e` with a signed run of digits
that ends the text. -/
def exponent? : List Char → Option Int
  | [] => some 0
  | e :: cs =>
    if e = 'e' ∨ e = 'E' then
      match cs with
      | '-' :: ds => (digits? ds).map fun n => -(n : Int)
      | '+' :: ds => (digits? ds).map fun n => (n : Int)
      | ds => (digits? ds).map fun n => (n : Int)
    else none

def magnitude? (cs : List Char) : Option Nat :=
  let whole := cs.takeWhile Char.isDigit
  let (part, rest) := match cs.dropWhile Char.isDigit with
    | '.' :: rest => (rest.takeWhile Char.isDigit, rest.dropWhile Char.isDigit)
    | rest => ([], rest)
  if whole = [] ∧ part = [] then none
  else (exponent? rest).map fun e => Binary64.ofDecimal (ofDigits (whole ++ part)) (e - part.length)

/-- The words that stand for numbers without digits. -/
def word? (negative : Bool) (cs : List Char) : Option Decimal :=
  let w := String.ofList (Text.lowerAscii cs)
  if w = "inf" ∨ w = "infinity" then some (.number ⟨negative, Binary64.infinite⟩)
  else if w = "nan" then some .notANumber
  else none

/-- Reads a decimal number, rounded to the nearest binary64. -/
def decimal? (s : String) : Option Decimal :=
  let (negative, cs) := match s.toList with
    | '-' :: cs => (true, cs)
    | '+' :: cs => (false, cs)
    | cs => (false, cs)
  match word? negative cs with
  | some w => some w
  | none => (magnitude? cs).map fun m => .number ⟨negative, m⟩

end Numeral
end JobPipeline
