import JobPipeline.Number.Numeral

/-
Strings and keys of TOML text.

A string is basic, with escapes, or literal, without; either can stand on one
line between single marks or run over many lines between triple ones.  The
readers here begin behind the opening marks and give the text with what follows
the closing ones.
-/
namespace JobPipeline
namespace Toml

/-- Spaces and tabs. -/
def isSpace (c : Char) : Bool := c == ' ' || c == '\t'

/-- Characters that stand for themselves: all but the controls, the tab among
those that do. -/
def isPlain (c : Char) : Bool := c == '\t' || (32 ≤ c.toNat && c.toNat ≠ 127)

/-- The character of a code point written in hexadecimal digits. -/
def character? (digits : List Char) : Option Char :=
  (Numeral.hexNumber? digits).bind fun n => if n.isValidChar then some (Char.ofNat n) else none

/-- The character that a one-letter escape stands for. -/
def letterEscape? (c : Char) : Option Char :=
  if c = '"' ∨ c = '\\' then some c
  else if c = 'b' then some (Char.ofNat 8)
  else if c = 'f' then some (Char.ofNat 12)
  else if c = 'n' then some '\n'
  else if c = 'r' then some '\r'
  else if c = 't' then some '\t'
  else none

/-- Puts a character in front of a text that may have been read. -/
def before (c : Option Char) (read : Option (List Char × List Char)) :
    Option (List Char × List Char) :=
  match c, read with
  | some c, some (inner, rest) => some (c :: inner, rest)
  | _, _ => none

/-- A basic string on one line. -/
def basic? : List Char → Option (List Char × List Char)
  | [] => none
  | '\\' :: 'u' :: a :: b :: c :: d :: rest => before (character? [a, b, c, d]) (basic? rest)
  | '\\' :: 'U' :: a :: b :: c :: d :: e :: f :: g :: h :: rest =>
    before (character? [a, b, c, d, e, f, g, h]) (basic? rest)
  | '\\' :: e :: rest => before (letterEscape? e) (basic? rest)
  | c :: rest =>
    if c = '"' then some ([], rest)
    else if isPlain c && c ≠ '\\' then before (some c) (basic? rest)
    else none

/-- A literal string on one line. -/
def literal? : List Char → Option (List Char × List Char)
  | [] => none
  | c :: rest =>
    if c = '\'' then some ([], rest)
    else if isPlain c then before (some c) (literal? rest)
    else none

/-- What follows three marks that close a string: up to two marks more belong to
its text. -/
def closing (mark : Char) : List Char → List Char × List Char
  | a :: b :: rest =>
    if a = mark then if b = mark then ([mark, mark], rest) else ([mark], b :: rest)
    else ([], a :: b :: rest)
  | [a] => if a = mark then ([mark], []) else ([], [a])
  | [] => ([], [])

/-- Two marks at the start of a text, and what follows them. -/
def twoMarks? (mark : Char) : List Char → Option (List Char)
  | a :: b :: rest => if a = mark ∧ b = mark then some rest else none
  | _ => none

/-- Nothing but spaces up to a line end. -/
def endsLine (cs : List Char) : Bool :=
  match cs.dropWhile isSpace with
  | '\n' :: _ => true
  | '\r' :: '\n' :: _ => true
  | _ => false

/-- A basic string over many lines.  A backslash at the end of a line drops the
blanks and line ends behind it; `dropping` says that such a run is being read. -/
def basicLines? : (dropping : Bool) → List Char → Option (List Char × List Char)
  | _, [] => none
  | _, '\\' :: 'u' :: a :: b :: c :: d :: rest =>
    before (character? [a, b, c, d]) (basicLines? false rest)
  | _, '\\' :: 'U' :: a :: b :: c :: d :: e :: f :: g :: h :: rest =>
    before (character? [a, b, c, d, e, f, g, h]) (basicLines? false rest)
  | dropping, c :: rest =>
    if c = '\\' then
      if endsLine rest then basicLines? true rest
      else match rest with
        | [] => none
        | e :: rest => before (letterEscape? e) (basicLines? false rest)
    else if c = '"' then
      match twoMarks? '"' rest with
      | some rest => some (closing '"' rest)
      | none => before (some c) (basicLines? false rest)
    else if c = '\n' then
      if dropping then basicLines? true rest else before (some c) (basicLines? false rest)
    else if c = '\r' then
      if rest.head? = some '\n' then basicLines? dropping rest else none
    else if dropping && isSpace c then basicLines? true rest
    else if isPlain c then before (some c) (basicLines? false rest)
    else none

/-- A literal string over many lines. -/
def literalLines? : List Char → Option (List Char × List Char)
  | [] => none
  | c :: rest =>
    if c = '\'' then
      match twoMarks? '\'' rest with
      | some rest => some (closing '\'' rest)
      | none => before (some c) (literalLines? rest)
    else if c = '\r' then
      if rest.head? = some '\n' then literalLines? rest else none
    else if isPlain c || c = '\n' then before (some c) (literalLines? rest)
    else none

/-- The text behind a line end at its start, which a string over many lines does
not count. -/
def afterFirstLineEnd : List Char → List Char
  | '\n' :: rest => rest
  | '\r' :: '\n' :: rest => rest
  | cs => cs

/-- The string of any form at the start of a text. -/
def string? : List Char → Option (List Char × List Char)
  | [] => none
  | c :: rest =>
    if c = '"' then
      match twoMarks? '"' rest with
      | some rest => basicLines? false (afterFirstLineEnd rest)
      | none => basic? rest
    else if c = '\'' then
      match twoMarks? '\'' rest with
      | some rest => literalLines? (afterFirstLineEnd rest)
      | none => literal? rest
    else none

/-- The characters of a key without quotes. -/
def isKeyChar (c : Char) : Bool := c.isAlphanum || c == '-' || c == '_'

/-- A key at the start of a text: a string on one line, or bare. -/
def key? (cs : List Char) : Option (List Char × List Char) :=
  match cs with
  | '"' :: rest => basic? rest
  | '\'' :: rest => literal? rest
  | cs =>
    match cs.takeWhile isKeyChar with
    | [] => none
    | name => some (name, cs.dropWhile isKeyChar)

end Toml
end JobPipeline
