import JobPipeline.Number.Numeral

/-
Numbers of TOML text.

Digits may be parted by single underscores.  A whole number has 64 bits with a
sign and can be written in other bases; a decimal number has a point or an
exponent, and one that is too large above is refused, while one that is too
large below is minus infinity.
-/
namespace JobPipeline
namespace Toml

/-- A number that is not whole. -/
inductive Real where
  | number (x : Binary64)
  | notANumber
deriving DecidableEq, Repr

/-- The digits behind the first of a run, and what follows the run. -/
def digitsBehind (isDigit : Char → Bool) : List Char → List Char × List Char
  | [] => ([], [])
  | [c] => if isDigit c then ([c], []) else ([], [c])
  | c :: d :: cs =>
    if isDigit c then
      let (ds, rest) := digitsBehind isDigit (d :: cs)
      (c :: ds, rest)
    else if c = '_' ∧ isDigit d then
      let (ds, rest) := digitsBehind isDigit cs
      (d :: ds, rest)
    else ([], c :: d :: cs)

/-- A run of digits at the start of a text, without its underscores. -/
def digits? (isDigit : Char → Bool) : List Char → Option (List Char × List Char)
  | [] => none
  | c :: cs =>
    if isDigit c then
      let (ds, rest) := digitsBehind isDigit cs
      some (c :: ds, rest)
    else none

/-- A sign at the start of a text; there is none before a positive number. -/
def sign : List Char → Bool × List Char
  | '-' :: cs => (true, cs)
  | '+' :: cs => (false, cs)
  | cs => (false, cs)

/-- Decimal digits of a whole part: a leading zero stands alone. -/
def wholeDigits? : List Char → Option (List Char × List Char)
  | '0' :: cs => some (['0'], cs)
  | cs => digits? Char.isDigit cs

/-- Digits in a base behind the mark for it. -/
def based? (base : Nat) (cs : List Char) : Option (Int × List Char) :=
  let value? := fun c => (Numeral.hexValue? c).filter (· < base)
  match digits? (fun c => (value? c).isSome) cs with
  | none => none
  | some (ds, rest) =>
    let n := ds.foldl (fun n c => base * n + (value? c).getD 0) 0
    if n < twoTo 63 then some (n, rest) else none

def integer? (cs : List Char) : Option (Int × List Char) :=
  match cs with
  | '0' :: 'x' :: cs => based? 16 cs
  | '0' :: 'o' :: cs => based? 8 cs
  | '0' :: 'b' :: cs => based? 2 cs
  | cs =>
    let (negative, cs) := sign cs
    match wholeDigits? cs with
    | none => none
    | some (ds, rest) =>
      let n := Numeral.ofDigits ds
      if negative then if n ≤ twoTo 63 then some (-(n : Int), rest) else none
      else if n < twoTo 63 then some (n, rest) else none

def exponent? : List Char → Option (Int × List Char)
  | [] => none
  | e :: cs =>
    if e = 'e' ∨ e = 'E' then
      let (negative, cs) := sign cs
      (digits? Char.isDigit cs).map fun (ds, rest) =>
        let n : Int := Numeral.ofDigits ds
        (if negative then -n else n, rest)
    else none

/-- What follows the whole part of a decimal number: the digits behind the
point, the exponent, and the text behind them. -/
def decimalPart? : List Char → Option (List Char × Int × List Char)
  | '.' :: cs =>
    match digits? Char.isDigit cs with
    | none => none
    | some (part, rest) =>
      match exponent? rest with
      | some (e, rest) => some (part, e, rest)
      | none => some (part, 0, rest)
  | cs => (exponent? cs).map fun (e, rest) => ([], e, rest)

/-- The word for infinity or for not-a-number at the start of a text. -/
def realWord? (negative : Bool) : List Char → Option (Real × List Char)
  | 'i' :: 'n' :: 'f' :: rest => some (.number ⟨negative, Binary64.infinite⟩, rest)
  | 'n' :: 'a' :: 'n' :: rest => some (.notANumber, rest)
  | _ => none

/-- The number that is not whole at the start of a text. -/
def real? (cs : List Char) : Option (Real × List Char) :=
  let (negative, cs) := sign cs
  match wholeDigits? cs with
  | none => realWord? negative cs
  | some (whole, rest) =>
    match decimalPart? rest with
    | none => none
    | some (part, e, rest) =>
      let magnitude := Binary64.ofDecimal (Numeral.ofDigits (whole ++ part)) (e - part.length)
      if magnitude = Binary64.infinite ∧ negative = false then none
      else some (.number ⟨negative, magnitude⟩, rest)

end Toml
end JobPipeline
