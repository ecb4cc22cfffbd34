import JobPipeline.Number.Binary64

/-
The decimal text of a binary64 number.

`shortest` finds the fewest digits that read back as the same number, and of
those the nearest.  Where two are equally near, and how the digits are laid out,
are separate choices: JSON text takes the even one and goes over to an exponent
for very large and very small numbers, a spec preamble takes the larger one and
writes every place.
-/
namespace JobPipeline
namespace Binary64

/-- How many decimal places stand before the point of a positive ratio: the
least `k` with `n / d < 10 ^ k`. -/
def wholePlaces (n d : Nat) : Int :=
  if d ≤ n then (Nat.toDigits 10 (n / d)).length
  else
    let rec leadingZeros : Nat → Nat → Int
      | 0, _ => 0
      | fuel + 1, n => if d ≤ n * 10 then 0 else leadingZeros fuel (n * 10) - 1
    leadingZeros 400 n

/-- Which of two equally near decimals is taken. -/
inductive Tie where
  | even
  | larger
deriving DecidableEq, Repr

/-- Of the grid points `below` and `below + 1`, the first is taken for `n / d`,
where both read back. -/
def Tie.takesBelow (tie : Tie) (n d below : Nat) : Bool :=
  let twice := 2 * (n % d)
  twice < d || (twice == d && tie == .even && below % 2 == 0)

/-- The neighbours of `n / d` on the grid of multiples of `10 ^ p` that read
back as magnitude `m`; the nearer of two. -/
def onGrid? (tie : Tie) (m n d : Nat) (p : Int) : Option Nat :=
  let (n, d) := if 0 ≤ p then (n, d * tenTo p.toNat) else (n * tenTo (-p).toNat, d)
  let below := n / d
  let belowReads := ofDecimal below p == m
  let aboveReads := ofDecimal (below + 1) p == m
  if belowReads && (!aboveReads || tie.takesBelow n d below) then some below
  else if aboveReads then some (below + 1)
  else none

/-- Fewest digits of a positive finite magnitude: the digits as a number, and
the power of ten they are multiplied with. -/
def shortest (tie : Tie) (m : Nat) : Nat × Int :=
  let (n, d) := fraction m
  let k := wholePlaces n d
  let rec search : Nat → Int → Nat × Int
    | 0, p => (n / d, p)
    | fuel + 1, p =>
      match onGrid? tie m n d p with
      | some digits => (digits, p)
      | none => search fuel (p - 1)
  search 17 (k - 1)

/-- The digits of a positive finite magnitude, and `k` such that the number is
`0.d₁d₂… · 10 ^ k`. -/
def digits (tie : Tie) (m : Nat) : List Char × Int :=
  let (c, p) := shortest tie m
  let ds := Nat.toDigits 10 c
  let kept := (ds.reverse.dropWhile (· == '0')).reverse
  (kept, (ds.length : Int) + p)

/-- Digits around a point, with at least one on each side. -/
def positional (ds : List Char) (k : Int) : List Char :=
  if k ≤ 0 then '0' :: '.' :: List.replicate (-k).toNat '0' ++ ds
  else
    let whole := ds.take k.toNat ++ List.replicate (k.toNat - ds.length) '0'
    match ds.drop k.toNat with
    | [] => whole ++ ['.', '0']
    | rest => whole ++ '.' :: rest

/-- One digit, a point if there are more, and a power of ten with its sign. -/
def scientific (ds : List Char) (k : Int) : List Char :=
  let e := k - 1
  let power := (if 0 ≤ e then '+' else '-') :: Nat.toDigits 10 e.natAbs
  match ds with
  | [d] => d :: 'e' :: power
  | d :: rest => d :: '.' :: rest ++ 'e' :: power
  | [] => 'e' :: power

def signed (x : Binary64) (cs : List Char) : String :=
  String.ofList (if x.negative then '-' :: cs else cs)

/-- The JSON text of a finite number: up to sixteen places before the point and
five zeros behind it are written out. -/
def jsonText (x : Binary64) : String :=
  signed x <|
    if x.magnitude = 0 then ['0', '.', '0']
    else
      let (ds, k) := digits .even x.magnitude
      if -5 < k && k ≤ 16 then positional ds k else scientific ds k

/-- The text of a number in a spec preamble: every place is written out. -/
def plainText (x : Binary64) : String :=
  signed x <|
    if x.magnitude = 0 then ['0', '.', '0']
    else if x.magnitude < infinite then
      let (ds, k) := digits .larger x.magnitude
      positional ds k
    else ['i', 'n', 'f']

end Binary64
end JobPipeline
