import JobPipeline.Json.Numeral
import JobPipeline.Json.Scope

/-
Reading JSON text.

The reader keeps the members of an object as they are written; `read?` with
`canonical` behind it gives the value denoted.  Refused are control characters
in strings and, in the part of the text that is taken in, halves of surrogate
pairs, numbers out of range, and values nested more than 127 deep.  What is
passed over stands as null, and without its keys.
-/
namespace JobPipeline
namespace Json

open Numeral (hexNumber?)

def isSpace (c : Char) : Bool := c == ' ' || c == '\t' || c == '\n' || c == '\r'

def skipSpace (cs : List Char) : List Char := cs.dropWhile isSpace

/-- A piece of a string literal: a character, or a 16-bit unit written as an
escape. -/
inductive StringPart where
  | char (c : Char)
  | unit (n : Nat)
deriving DecidableEq, Repr

/-- The character that a one-letter escape stands for. -/
def letterEscape? (c : Char) : Option Char :=
  if c = '"' ∨ c = '\\' ∨ c = '/' then some c
  else if c = 'b' then some (Char.ofNat 8)
  else if c = 'f' then some (Char.ofNat 12)
  else if c = 'n' then some '\n'
  else if c = 'r' then some '\r'
  else if c = 't' then some '\t'
  else none

/-- The pieces of a string literal up to its closing quote, and what follows. -/
def stringParts? : List Char → Option (List StringPart × List Char)
  | [] => none
  | '\\' :: 'u' :: a :: b :: c :: d :: rest =>
    match hexNumber? [a, b, c, d], stringParts? rest with
    | some n, some (parts, rest) => some (.unit n :: parts, rest)
    | _, _ => none
  | '\\' :: e :: rest =>
    match letterEscape? e, stringParts? rest with
    | some c, some (parts, rest) => some (.char c :: parts, rest)
    | _, _ => none
  | c :: rest =>
    if c = '"' then some ([], rest)
    else if c.toNat < 32 ∨ c = '\\' then none
    else (stringParts? rest).map fun (parts, rest) => (.char c :: parts, rest)

def isHighUnit (n : Nat) : Bool := 0xD800 ≤ n && n ≤ 0xDBFF

def isLowUnit (n : Nat) : Bool := 0xDC00 ≤ n && n ≤ 0xDFFF

/-- The characters of a literal: a high unit needs a low one right behind it,
and a low one stands nowhere else. -/
def charsOfParts? : List StringPart → Option (List Char)
  | [] => some []
  | .char c :: parts => (charsOfParts? parts).map (c :: ·)
  | .unit n :: .unit m :: parts =>
    if isHighUnit n then
      if isLowUnit m then
        (charsOfParts? parts).map
          (Char.ofNat (0x10000 + (n - 0xD800) * 0x400 + (m - 0xDC00)) :: ·)
      else none
    else if isLowUnit n then none
    else (charsOfParts? (.unit m :: parts)).map (Char.ofNat n :: ·)
  | .unit n :: parts =>
    if isHighUnit n || isLowUnit n then none else (charsOfParts? parts).map (Char.ofNat n :: ·)

/-- The string whose opening quote has been read. -/
def stringTail? (scope : Scope) (cs : List Char) : Option (String × List Char) :=
  match stringParts? cs, scope with
  | none, _ => none
  | some (_, rest), .nothing => some ("", rest)
  | some (parts, rest), _ => (charsOfParts? parts).map fun chars => (String.ofList chars, rest)

/-- The number whose sign has been read. -/
def numberTail? (scope : Scope) (negative : Bool) (cs : List Char) : Option (Json × List Char) :=
  match spelling? negative cs, scope with
  | none, _ => none
  | some (_, rest), .nothing => some (.null, rest)
  | some (s, rest), _ => s.number?.map fun n => (.number n, rest)

mutual
/-- The value at the start of a text, with at most `depth` brackets open
inside it. -/
def value? : (fuel depth : Nat) → Scope → List Char → Option (Json × List Char)
  | 0, _, _, _ => none
  | fuel + 1, depth, scope, cs =>
    match skipSpace cs with
    | 'n' :: 'u' :: 'l' :: 'l' :: rest => some (.null, rest)
    | 't' :: 'r' :: 'u' :: 'e' :: rest => some (.bool true, rest)
    | 'f' :: 'a' :: 'l' :: 's' :: 'e' :: rest => some (.bool false, rest)
    | '"' :: rest => (stringTail? scope rest).map fun (s, rest) => (.string s, rest)
    | '-' :: rest => numberTail? scope true rest
    | '[' :: rest =>
      match scope.inside? depth with
      | none => none
      | some depth =>
        match skipSpace rest with
        | ']' :: rest => some (.array [], rest)
        | rest => (items? fuel depth scope rest).map fun (items, rest) => (.array items, rest)
    | '\x7b' :: rest =>
      match scope.inside? depth with
      | none => none
      | some depth =>
        match skipSpace rest with
        | '\x7d' :: rest => some (.object [], rest)
        | rest =>
          (members? fuel depth scope rest).map fun (members, rest) => (.object members, rest)
    | rest => numberTail? scope false rest
/-- The items of an array from the first on, up to the closing bracket. -/
def items? : (fuel depth : Nat) → Scope → List Char → Option (List Json × List Char)
  | 0, _, _, _ => none
  | fuel + 1, depth, scope, cs =>
    match value? fuel depth scope.item cs with
    | none => none
    | some (item, rest) =>
      match skipSpace rest with
      | ']' :: rest => some ([item], rest)
      | ',' :: rest =>
        (items? fuel depth scope.behind rest).map fun (items, rest) => (item :: items, rest)
      | _ => none
/-- The members of an object from the first on, up to the closing brace. -/
def members? : (fuel depth : Nat) → Scope → List Char → Option (List (String × Json) × List Char)
  | 0, _, _, _ => none
  | fuel + 1, depth, scope, cs =>
    match skipSpace cs with
    | '"' :: rest =>
      match stringTail? scope rest with
      | none => none
      | some (key, rest) =>
        match skipSpace rest with
        | ':' :: rest =>
          match value? fuel depth (scope.member key) rest with
          | none => none
          | some (json, rest) =>
            match skipSpace rest with
            | '\x7d' :: rest => some ([(key, json)], rest)
            | ',' :: rest =>
              (members? fuel depth scope rest).map fun (members, rest) =>
                ((key, json) :: members, rest)
            | _ => none
        | _ => none
    | _ => none
end

def mostDepth : Nat := 127

/-- The value that fills a whole text, as far as it is taken in. -/
def readWithin? (scope : Scope) (s : String) : Option Json :=
  let cs := s.toList
  match value? (2 * cs.length + 2) mostDepth scope cs with
  | some (json, rest) => if skipSpace rest = [] then some json else none
  | none => none

/-- The value that fills a whole text. -/
def read? (s : String) : Option Json := readWithin? .everything s

def valueOf? (s : String) : Option Json := (read? s).map canonical

/-- What a text says, to a reader that takes in a part of it. -/
def readAs? {α : Type} (scope : Scope) (ofJson? : Json → Option α) (s : String) : Option α :=
  (readWithin? scope s).bind ofJson?

end Json
end JobPipeline
