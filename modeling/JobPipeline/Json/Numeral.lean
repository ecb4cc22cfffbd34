import JobPipeline.Json.Basic
import JobPipeline.Number.Numeral

/-
Numbers in JSON text.

A numeral without point and exponent that fits 64 bits is a whole number.  All
others, and minus zero, are binary64: the leading digits that fit 64 bits are
rounded first and then scaled by a power of ten, so the result can be a last
place away from the nearest number.  A result too large for binary64 is refused.
-/
namespace JobPipeline
namespace Json

open Numeral (digitValue most64)

/-- The exponent of a numeral: its sign and digits. -/
structure Exponent where
  negative : Bool
  digits : List Char
deriving DecidableEq, Repr

/-- A numeral by its parts, the way JSON spells it. -/
structure Spelling where
  negative : Bool
  whole : List Char
  part : List Char
  exponent : Option Exponent
deriving DecidableEq, Repr

/-- Digits taken into a number as long as it fits 64 bits, and how many are left
over from the first that does not. -/
def significant (n : Nat) : List Char → Nat × Nat
  | [] => (n, 0)
  | c :: cs =>
    let m := 10 * n + digitValue c
    if m ≤ most64 then significant m cs else (n, cs.length + 1)

/-- A magnitude times a power of ten, in the steps that powers of ten up to the
308th allow.  Four of them bring every 64-bit number to zero. -/
def scale : Nat → Nat → Int → Option Nat
  | 0, m, _ => some m
  | fuel + 1, m, e =>
    if e.natAbs ≤ 308 then
      if 0 ≤ e then
        let r := Binary64.product m (Binary64.ofDecimal 1 e)
        if r < Binary64.infinite then some r else none
      else some (Binary64.quotient m (Binary64.ofDecimal 1 (-e)))
    else if m = 0 then some 0
    else if 0 ≤ e then none
    else scale fuel (Binary64.quotient m (Binary64.ofDecimal 1 308)) (e + 308)

/-- Largest exponent that is taken at its value. -/
def mostExponent : Nat := twoTo 31 - 1

/-- The binary64 of a numeral. -/
def Spelling.real? (s : Spelling) : Option Number :=
  let (n, wholeLeft) := significant 0 s.whole
  let (n, partLeft) := significant n s.part
  let shift : Int := (wholeLeft : Int) - ((s.part.length - partLeft : Nat) : Int)
  let scaled (e : Int) := (scale 5 (Binary64.ofRatio n 1) e).map fun m => Number.real ⟨s.negative, m⟩
  match s.exponent with
  | none => scaled shift
  | some e =>
    let size := Numeral.ofDigits e.digits
    if size ≤ mostExponent then scaled (if e.negative then shift - size else shift + size)
    else if n ≠ 0 ∧ e.negative = false then none
    else some (.real ⟨s.negative, 0⟩)

/-- The number a numeral denotes; none if it is out of range. -/
def Spelling.number? (s : Spelling) : Option Number :=
  if s.part = [] ∧ s.exponent = none then
    let n := Numeral.ofDigits s.whole
    if s.negative = false ∧ n ≤ most64 then some (.whole n)
    else if s.negative = true ∧ 0 < n ∧ n ≤ twoTo 63 then some (.whole (-(n : Int)))
    else s.real?
  else s.real?

/-- The exponent at the start of a text, if one is begun there. -/
def exponentPart? : List Char → Option (Option Exponent × List Char)
  | [] => some (none, [])
  | e :: cs =>
    if e = 'e' ∨ e = 'E' then
      let (negative, cs) := match cs with
        | '-' :: cs => (true, cs)
        | '+' :: cs => (false, cs)
        | cs => (false, cs)
      let ds := cs.takeWhile Char.isDigit
      if ds = [] then none else some (some ⟨negative, ds⟩, cs.dropWhile Char.isDigit)
    else some (none, e :: cs)

/-- The numeral at the start of a text, behind its sign: no leading zero, and a
digit on each side of a point. -/
def spelling? (negative : Bool) (cs : List Char) : Option (Spelling × List Char) :=
  let whole := cs.takeWhile Char.isDigit
  if whole = [] ∨ (1 < whole.length ∧ whole.head? = some '0') then none
  else
    match cs.dropWhile Char.isDigit with
    | '.' :: rest =>
      let part := rest.takeWhile Char.isDigit
      if part = [] then none
      else (exponentPart? (rest.dropWhile Char.isDigit)).map fun (e, rest) =>
        (⟨negative, whole, part, e⟩, rest)
    | rest => (exponentPart? rest).map fun (e, rest) => (⟨negative, whole, [], e⟩, rest)

end Json
end JobPipeline
