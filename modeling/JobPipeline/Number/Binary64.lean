import JobPipeline.Number.Power

/-
Binary64 numbers, in exact integer arithmetic.

A number is kept as its sign and the other 63 bits read as one natural number.
On that reading the order of the magnitudes is the order of the numbers, and
rounding is one rule, `ofRatio`: the nearest representable value, a tie going
to the even one.  Reading decimals, scaling by powers of ten and printing the
fewest digits are all stated with it.
-/
namespace JobPipeline

structure Binary64 where
  negative : Bool
  magnitude : Nat
deriving DecidableEq, Repr, Inhabited

namespace Binary64

/-- The magnitude of infinity; the finite magnitudes are those below it. -/
def infinite : Nat := 2047 * twoTo 52

def zero : Binary64 := ⟨false, 0⟩

def isFinite (x : Binary64) : Bool := x.magnitude < infinite

/-- Not below zero.  Negative zero is not. -/
def nonNegative (x : Binary64) : Bool := !x.negative || x.magnitude == 0

/-- The value of a finite magnitude as a fraction. -/
def fraction (m : Nat) : Nat × Nat :=
  if m < twoTo 52 then (m, twoTo 1074)
  else
    let exponent := m / twoTo 52
    let mantissa := twoTo 52 + m % twoTo 52
    if 1075 ≤ exponent then (mantissa * twoTo (exponent - 1075), 1)
    else (mantissa, twoTo (1075 - exponent))

/-- The natural number nearest to `n / d`, a half going to the even one. -/
def nearest (n d : Nat) : Nat :=
  let q := n / d
  let twice := 2 * (n % d)
  if d < twice || (twice == d && q % 2 == 1) then q + 1 else q

/-- The exponent of the unit in which a positive ratio is measured: the ratio
then has 53 binary places before the point, or fewer where the smallest
exponent stops it. -/
def unitExponent (n d : Nat) : Int :=
  let guess : Int := (n.log2 : Int) - (d.log2 : Int)
  let atLeast : Bool :=
    if 0 ≤ guess then d * twoTo guess.toNat ≤ n else d ≤ n * twoTo (-guess).toNat
  max ((if atLeast then guess else guess - 1) - 52) (-1074)

/-- The magnitude nearest to `n / d`, infinity when that is too large. -/
def ofRatio (n d : Nat) : Nat :=
  if n = 0 then 0
  else
    let e := unitExponent n d
    let mantissa :=
      if 0 ≤ e then nearest n (d * twoTo e.toNat) else nearest (n * twoTo (-e).toNat) d
    min ((e + 1074).toNat * twoTo 52 + mantissa) infinite

def ofNat (n : Nat) : Binary64 := ⟨false, ofRatio n 1⟩

def ofInt (i : Int) : Binary64 := ⟨i < 0, ofRatio i.natAbs 1⟩

/-- The magnitude nearest to `digits · 10 ^ exponent`.  Exponents far outside
the range are answered without computing the power. -/
def ofDecimal (digits : Nat) (exponent : Int) : Nat :=
  if digits = 0 then 0
  else
    let places : Int := (Nat.toDigits 10 digits).length
    if 400 < places + exponent then infinite
    else if places + exponent < -400 then 0
    else if 0 ≤ exponent then ofRatio (digits * tenTo exponent.toNat) 1
    else ofRatio digits (tenTo (-exponent).toNat)

/-- The rounded product of two finite magnitudes. -/
def product (a b : Nat) : Nat :=
  let (an, ad) := fraction a
  let (bn, bd) := fraction b
  ofRatio (an * bn) (ad * bd)

/-- The rounded quotient of two finite magnitudes, the second not zero. -/
def quotient (a b : Nat) : Nat :=
  let (an, ad) := fraction a
  let (bn, bd) := fraction b
  ofRatio (an * bd) (ad * bn)

end Binary64
end JobPipeline
