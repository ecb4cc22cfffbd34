import JobPipeline.Toml.Tree

/-
Reading a TOML document.

A document is a run of lines: pairs of a key and a value, headers of tables, and
comments.  Its tables are built as the lines come, each pair going to the table
of the last header above it.
-/
namespace JobPipeline
namespace Toml

/-- Takes from the front of a text, or refuses it. -/
abbrev Scan (α : Type) := StateT (List Char) Option α

namespace Scan

def refuse {α : Type} : Scan α := fun _ => none

def of {α : Type} (scan : List Char → Option (α × List Char)) : Scan α := scan

/-- The next character, which stays. -/
def peek : Scan (Option Char) := fun cs => some (cs.head?, cs)

def mark (c : Char) : Scan Unit := fun cs => (Calendar.after? c cs).map fun rest => ((), rest)

def spaces : Scan Unit := fun cs => some ((), cs.dropWhile isSpace)

def option {α : Type} (scan : Scan α) : Scan (Option α) := fun cs =>
  match scan cs with
  | some (a, rest) => some (some a, rest)
  | none => some (none, cs)

/-- A comment up to the end of its line. -/
def comment : Scan Unit := fun cs =>
  (Calendar.after? '#' cs).map fun rest => ((), rest.dropWhile isPlain)

def lineEnd : Scan Unit := fun
  | '\n' :: rest => some ((), rest)
  | '\r' :: '\n' :: rest => some ((), rest)
  | _ => none

def ending : Scan Unit := fun cs => if cs = [] then some ((), []) else lineEnd cs

/-- What may stand behind a pair or a header. -/
def trailing : Scan Unit := do
  spaces
  let _ ← option comment
  ending

/-- Blanks, line ends and comments, as they stand between the items of a list. -/
def gaps : (fuel : Nat) → Scan Unit
  | 0 => pure ()
  | fuel + 1 => do
    spaces
    let _ ← option comment
    match ← option lineEnd with
    | some _ => gaps fuel
    | none => pure ()

end Scan

/-- How many parts a dotted key may have, and how deep values may be nested. -/
def mostParts : Nat := 79

/-- The parts of a dotted key, from the first on. -/
def parts : (fuel : Nat) → Scan (List String)
  | 0 => Scan.refuse
  | fuel + 1 => do
    Scan.spaces
    let name ← Scan.of key?
    Scan.spaces
    match ← Scan.peek with
    | some '.' =>
      Scan.mark '.'
      return String.ofList name :: (← parts fuel)
    | _ => return [String.ofList name]

def dottedKey : Scan (List String) := parts mostParts

/-- A word that stands for a truth value. -/
def truth? : List Char → Option (Bool × List Char)
  | 't' :: 'r' :: 'u' :: 'e' :: rest => some (true, rest)
  | 'f' :: 'a' :: 'l' :: 's' :: 'e' :: rest => some (false, rest)
  | _ => none

def simple? (cs : List Char) : Option (Value × List Char) :=
  match string? cs with
  | some (s, rest) => some (.string (String.ofList s), rest)
  | none =>
    match truth? cs with
    | some (b, rest) => some (.bool b, rest)
    | none =>
      match Calendar.moment? cs with
      | some (m, rest) => some (.moment m, rest)
      | none =>
        match real? cs with
        | some (r, rest) => some (.real r, rest)
        | none => (integer? cs).map fun (n, rest) => (.integer n, rest)

mutual
/-- A value with at most `depth` brackets open inside it. -/
def value : (fuel depth : Nat) → Scan Value
  | 0, _ => Scan.refuse
  | fuel + 1, depth => do
    match ← Scan.peek, depth with
    | some '[', 0 => Scan.refuse
    | some '\x7b', 0 => Scan.refuse
    | some '[', depth + 1 =>
      Scan.mark '['
      return .array (← items fuel depth)
    | some '\x7b', depth + 1 =>
      Scan.mark '\x7b'
      Scan.spaces
      match ← Scan.peek with
      | some '\x7d' =>
        Scan.mark '\x7d'
        return .table []
      | _ => return .table (finishMembers (← pairs fuel depth []))
    | _, _ => Scan.of simple?
/-- The items of a list up to its closing bracket. -/
def items : (fuel depth : Nat) → Scan (List Value)
  | 0, _ => Scan.refuse
  | fuel + 1, depth => do
    Scan.gaps fuel
    match ← Scan.peek with
    | some ']' =>
      Scan.mark ']'
      return []
    | _ =>
      let item ← value fuel depth
      Scan.gaps fuel
      match ← Scan.peek with
      | some ',' =>
        Scan.mark ','
        return item :: (← items fuel depth)
      | _ =>
        Scan.mark ']'
        return [item]
/-- The pairs of a table in braces, one at least, up to the closing brace. -/
def pairs : (fuel depth : Nat) → Tree → Scan Tree
  | 0, _, _ => Scan.refuse
  | fuel + 1, depth, tree => do
    let path ← dottedKey
    Scan.mark '='
    Scan.spaces
    let v ← value fuel depth
    Scan.spaces
    match tree.assign v path true with
    | none => Scan.refuse
    | some tree =>
      match ← Scan.peek with
      | some ',' =>
        Scan.mark ','
        pairs fuel depth tree
      | _ =>
        Scan.mark '\x7d'
        return tree
end

/-- The tables built so far, and the header that pairs are under. -/
structure Building where
  tree : Tree
  header : List String
deriving Repr

namespace Building

def start : Building := ⟨[], []⟩

def assign (b : Building) (path : List String) (v : Value) : Option Building :=
  (b.tree.within (Tree.assign v path true) b.header).map fun tree => { b with tree }

/-- Begins the table, or the next table of a list, that a header names. -/
def enter (b : Building) (place : String → Tree → Option Tree) (path : List String) :
    Option Building :=
  match path.getLast? with
  | none => none
  | some key => (b.tree.within (place key) path.dropLast).map fun tree => ⟨tree, path⟩

end Building

/-- A header in brackets, whose first bracket has been read. -/
def header (b : Building) : Scan Building := do
  match ← Scan.peek with
  | some '[' =>
    Scan.mark '['
    let path ← dottedKey
    Scan.mark ']'
    Scan.mark ']'
    Scan.trailing
    Scan.of fun cs => (b.enter Tree.append path).map fun b => (b, cs)
  | _ =>
    let path ← dottedKey
    Scan.mark ']'
    Scan.trailing
    Scan.of fun cs => (b.enter Tree.define path).map fun b => (b, cs)

def line (fuel : Nat) (b : Building) : Scan Building := do
  match ← Scan.peek with
  | some '#' =>
    Scan.comment
    Scan.ending
    return b
  | some '[' =>
    Scan.mark '['
    header b
  | some '\n' | some '\r' =>
    Scan.lineEnd
    return b
  | _ =>
    let path ← dottedKey
    Scan.mark '='
    Scan.spaces
    let v ← value fuel mostParts
    Scan.trailing
    Scan.of fun cs => (b.assign path v).map fun b => (b, cs)

/-- The lines of a text.  Every line takes a character at least, so as many
lines as there are characters are enough. -/
def lines : (fuel : Nat) → Building → List Char → Option Building
  | 0, b, cs => if cs.dropWhile isSpace = [] then some b else none
  | fuel + 1, b, cs =>
    match cs.dropWhile isSpace with
    | [] => some b
    | cs =>
      match line (2 * cs.length + 2) b cs with
      | none => none
      | some (b, rest) => lines fuel b rest

/-- The text behind a byte order mark. -/
def afterOrderMark : List Char → List Char
  | [] => []
  | c :: cs => if c.toNat = 0xFEFF then cs else c :: cs

/-- The table that a document denotes. -/
def read? (text : String) : Option (Dict Value) :=
  let cs := afterOrderMark text.toList
  (lines cs.length Building.start cs).bind fun b => b.tree.finish?

end Toml
end JobPipeline
