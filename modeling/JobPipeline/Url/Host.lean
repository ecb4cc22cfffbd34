import JobPipeline.Number.Power
import JobPipeline.Url.Escape

/-
Hosts: a name, a number of 32 bits, or eight pieces of 16 bits.

A host whose last label is a number is a number as a whole, or it is no host.
Its parts are decimal, octal behind `0` or hexadecimal behind `0x`; each part
but the last is one byte, and the last fills the bytes that are left.  A number
is always written as four decimal bytes.

Eight pieces are read from within brackets; one gap may stand for pieces that
are zero, and the last two pieces may be written as four bytes.  They are written
with the longest run of at least two zeros as a gap, the first of equal runs.

Names are ASCII: no host with other letters is read.
-/
namespace JobPipeline
namespace Url

inductive Host where
  | named (name : List Char)
  | number (n : Nat)
  | pieces (ps : List Nat)
deriving DecidableEq, Repr

namespace Host

/-! Numbers -/

def isOctal (c : Char) : Bool := '0' ≤ c && c ≤ '7'

/-- The number that digits denote in a base, nothing being zero. -/
def ofDigits (base : Nat) (cs : List Char) : Nat :=
  cs.foldl (fun n c => base * n + (Numeral.hexValue? c).getD 0) 0

/-- One part of a number, which is not empty. -/
def part? (cs : List Char) : Option Nat :=
  let inBase := fun (base : Nat) (isDigit : Char → Bool) (cs : List Char) =>
    if cs.all isDigit then some (ofDigits base cs) else none
  let isHex := fun (c : Char) => (Numeral.hexValue? c).isSome
  match cs with
  | [] => none
  | ['0'] => some 0
  | '0' :: 'x' :: cs | '0' :: 'X' :: cs => inBase 16 isHex cs
  | '0' :: cs => inBase 8 isOctal cs
  | cs => inBase 10 Char.isDigit cs

/-- The labels of a name, without the empty one behind a last point. -/
def labels (name : List Char) : List (List Char) :=
  match (Text.splitOn '.' name).reverse with
  | [] :: label :: rest => (label :: rest).reverse
  | all => all.reverse

def endsInNumber (name : List Char) : Bool :=
  match (labels name).getLast? with
  | some label => (label ≠ [] && label.all Char.isDigit) || (part? label).isSome
  | none => false

/-- The number with these parts, if each but the last is a byte and the last fits
into the bytes that are left. -/
def ofParts? (parts : List Nat) : Option Nat :=
  match parts.reverse with
  | [] => none
  | last :: front =>
    let bytes := front.reverse
    if 4 < parts.length ∨ bytes.any (255 < ·) ∨ twoTo (8 * (4 - bytes.length)) ≤ last then none
    else some (bytes.foldl (fun n b => 256 * n + b) 0 * twoTo (8 * (4 - bytes.length)) + last)

def number? (name : List Char) : Option Nat := ((labels name).mapM part?).bind ofParts?

/-- The four bytes of a number in decimal, with points between them. -/
def numberText (n : Nat) : List Char :=
  Text.joinWith ['.'] ([24, 16, 8, 0].map fun shift => (toString (n / twoTo shift % 256)).toList)

/-! Pieces -/

/-- A decimal byte without leading zeros. -/
def byte? (cs : List Char) : Option Nat :=
  if cs = ['0'] then some 0
  else if cs.head? = some '0' ∨ 3 < cs.length then none
  else (Numeral.digits? cs).filter (· ≤ 255)

/-- Four bytes as two pieces. -/
def ofBytes? (cs : List Char) : Option (List Nat) :=
  match (Text.splitOn '.' cs).mapM byte? with
  | some [a, b, c, d] => some [256 * a + b, 256 * c + d]
  | _ => none

def piece? (cs : List Char) : Option Nat :=
  if cs = [] ∨ 4 < cs.length then none else Numeral.hexNumber? cs

/-- Pieces with colons between them, of which the last may be two in one. -/
def row? (cs : List Char) : Option (List Nat) :=
  match (Text.splitOn ':' cs).reverse with
  | [] => none
  | last :: front =>
    match front.reverse.mapM piece?, ((piece? last).map ([·])).or (ofBytes? last) with
    | some front, some last => some (front ++ last)
    | _, _ => none

/-- Pieces beside a gap, which may be none. -/
def besideGap? (row : List Char → Option (List Nat)) (cs : List Char) : Option (List Nat) :=
  if cs = [] then some [] else row cs

/-- Eight pieces, or fewer with a gap that stands for at least one. -/
def pieces? (cs : List Char) : Option (List Nat) :=
  match Text.aroundMark? "::".toList cs with
  | none => (row? cs).filter (·.length = 8)
  | some (before, after) =>
    match besideGap? (fun cs => (Text.splitOn ':' cs).mapM piece?) before,
        besideGap? row? after with
    | some front, some back =>
      if front.length + back.length ≤ 7 then
        some (front ++ List.replicate (8 - front.length - back.length) 0 ++ back)
      else none
    | _, _ => none

def leadingZeros (ps : List Nat) : Nat := (ps.takeWhile (· = 0)).length

/-- Where the longest run of zeros stands, and its length. -/
def longestGap : List Nat → Nat × Nat
  | [] => (0, 0)
  | p :: ps =>
    let here := leadingZeros (p :: ps)
    let (at', length) := longestGap ps
    if length ≤ here then (0, here) else (at' + 1, length)

def rowText (ps : List Nat) : List Char :=
  Text.joinWith [':'] (ps.map (Nat.toDigits 16))

def piecesText (ps : List Nat) : List Char :=
  let (at', length) := longestGap ps
  if length < 2 then rowText ps
  else rowText (ps.take at') ++ "::".toList ++ rowText (ps.drop (at' + length))

/-! Hosts -/

/-- The inside of brackets. -/
def bracketed? : List Char → Option (List Char)
  | '[' :: cs => if cs.getLast? = some ']' then some cs.dropLast else none
  | _ => none

/-- Characters that stand in no name of any kind. -/
def isBarred (c : Char) : Bool :=
  c.toNat = 0 || " \t\n\r#/:<>?@[\\]^|".toList.contains c

/-- Characters that stand in the name of a web host. -/
def isNamed (c : Char) : Bool := isPrinted c && !isBarred c && c ≠ '%'

/-- The host of a web address, which its name or its number gives in any case of
letters. -/
def ofName? (cs : List Char) : Option Host :=
  let name := Text.lowerAscii (unescape cs)
  if name = [] ∨ !name.all isNamed then none
  else if endsInNumber name then (number? name).map .number
  else some (.named name)

/-- The host of a web address. -/
def ofText? (cs : List Char) : Option Host :=
  if cs.head? = some '[' then ((bracketed? cs).bind pieces?).map .pieces else ofName? cs

/-- The host of any other address: its name is not interpreted. -/
def plain? (cs : List Char) : Option Host :=
  if cs.head? = some '[' then ((bracketed? cs).bind pieces?).map .pieces
  else if cs.any isBarred then none
  else some (.named (escape isPrinted cs))

def text : Host → List Char
  | .named name => name
  | .number n => numberText n
  | .pieces ps => '[' :: piecesText ps ++ [']']

end Host
end Url
end JobPipeline
