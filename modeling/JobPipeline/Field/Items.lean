import JobPipeline.Text.Blank
import JobPipeline.Text.Segment

/-
Array fields.

An array is edited as one item a line and kept as a bracketed list.  The list is
cut at the commas that are not inside a closed pair of brackets or quotes; an
opening bracket or quote that is never closed is an ordinary character, so it
cannot swallow the items behind it.
-/
namespace JobPipeline
namespace Field

/-- A text read as quoted literals and single characters. -/
inductive Atom where
  | char (c : Char)
  /-- The inside of a literal that is closed. -/
  | literal (inner : List Char)
deriving DecidableEq, Repr

def Atom.text : Atom → List Char
  | .char c => [c]
  | .literal inner => '"' :: inner ++ ['"']

/-- The inside of the literal whose opening quote has been read, up to the next
quote that no backslash stands before, and what follows that quote. -/
def literal? : List Char → Option (List Char × List Char)
  | [] => none
  | '\\' :: c :: cs => (literal? cs).map fun (inner, rest) => ('\\' :: c :: inner, rest)
  | c :: cs =>
    if c = '"' then some ([], cs)
    else (literal? cs).map fun (inner, rest) => (c :: inner, rest)

theorem text_of_literal? {cs inner rest : List Char} (h : literal? cs = some (inner, rest)) :
    cs = inner ++ '"' :: rest := by
  fun_induction literal? cs generalizing inner with
  | case1 => simp at h
  | case2 c cs ih =>
    obtain ⟨⟨i, r⟩, hi, hpair⟩ := Option.map_eq_some_iff.1 h
    simp only [Prod.mk.injEq] at hpair
    obtain ⟨rfl, rfl⟩ := hpair
    rw [ih hi]
    rfl
  | case3 cs => simp only [Option.some.injEq, Prod.mk.injEq] at h; obtain ⟨rfl, rfl⟩ := h; rfl
  | case4 c cs hne hq ih =>
    obtain ⟨⟨i, r⟩, hi, hpair⟩ := Option.map_eq_some_iff.1 h
    simp only [Prod.mk.injEq] at hpair
    obtain ⟨rfl, rfl⟩ := hpair
    rw [ih hi]
    rfl

def atoms : List Char → List Atom
  | [] => []
  | c :: cs =>
    if c = '"' then
      match _h : literal? cs with
      | some (inner, rest) => .literal inner :: atoms rest
      | none => .char c :: atoms cs
    else .char c :: atoms cs
termination_by cs => cs.length
decreasing_by
  · rw [text_of_literal? _h]
    simp only [List.length_cons, List.length_append]
    omega
  · simp
  · simp

/-- The opening bracket that a closing one belongs to. -/
def openerOf? (c : Char) : Option Char :=
  if c = ')' then some '('
  else if c = ']' then some '['
  else if c = '\x7d' then some '\x7b'
  else none

def isOpener (c : Char) : Bool := c == '(' || c == '[' || c == '\x7b'

/-- How far a list has been cut: the finished parts and the part being read, each
from its end, and the open brackets, the last first, each with the number of
parts that were finished when it was opened. -/
structure Cut where
  finished : List (List Char)
  current : List Char
  opened : List (Char × Nat)
deriving DecidableEq, Repr

namespace Cut

def start : Cut := ⟨[], [], []⟩

/-- The open bracket of the given kind that was opened last: how many parts were
finished then, and the brackets opened before it. -/
def lastOpen? (opener : Char) : List (Char × Nat) → Option (Nat × List (Char × Nat))
  | [] => none
  | (c, n) :: rest => if c = opener then some (n, rest) else lastOpen? opener rest

/-- Takes back the latest cuts, so many of them. -/
def mend : (cuts : Nat) → Cut → Cut
  | 0, cut => cut
  | cuts + 1, cut =>
    match cut.finished with
    | [] => cut
    | part :: parts => mend cuts { cut with finished := parts, current := cut.current ++ ',' :: part }

def push (cut : Cut) (c : Char) : Cut := { cut with current := c :: cut.current }

/-- Closing a pair takes back the cuts made inside it. -/
def close (cut : Cut) (c : Char) (n : Nat) (before : List (Char × Nat)) : Cut :=
  { mend (cut.finished.length - n) (cut.push c) with opened := before }

def step (cut : Cut) : Atom → Cut
  | .literal inner => { cut with current := (Atom.text (.literal inner)).reverse ++ cut.current }
  | .char c =>
    if c = ',' then { cut with finished := cut.current :: cut.finished, current := [] }
    else if isOpener c then
      { cut.push c with opened := (c, cut.finished.length) :: cut.opened }
    else match (openerOf? c).bind fun o => lastOpen? o cut.opened with
      | some (n, before) => cut.close c n before
      | none => cut.push c

def finish (cut : Cut) : List (List Char) := ((cut.current :: cut.finished).map List.reverse).reverse

end Cut

/-- The parts of a text between its commas outside of pairs. -/
def splitTopLevel (cs : List Char) : List (List Char) :=
  ((atoms cs).foldl Cut.step Cut.start).finish

/-- The text without one opening bracket at its start and one closing bracket at
its end. -/
def stripBrackets (cs : List Char) : List Char :=
  let inner := match cs with
    | '[' :: cs => cs
    | cs => cs
  if inner.getLast? = some ']' then inner.dropLast else inner

/-- One item a line, as a bracketed list.  A blank line is an empty item, and
the empty text stays empty. -/
def encodeArrayLines (cs : List Char) : List Char :=
  if cs = [] then []
  else '[' :: Text.joinWith [','] (Text.splitOn '\n' cs) ++ [']']

/-- A bracketed list, as one item a line. -/
def decodeArrayLines (cs : List Char) : List Char :=
  if cs = [] then [] else Text.joinWith ['\n'] (splitTopLevel (stripBrackets cs))

/-- The items of an array field without the blanks around them; empty items are
dropped. -/
def arrayItems (cs : List Char) : List (List Char) :=
  let inner := stripBrackets (Text.trim cs)
  if inner.all Text.isBlank then []
  else (splitTopLevel inner).map Text.trim |>.filter (· ≠ [])

/-- Items as the bracketed list that an attribute holds. -/
def renderArray (items : List (List Char)) : List Char :=
  if items = [] then ['[', ']']
  else ['[', ' '] ++ Text.joinWith [',', ' '] items ++ [' ', ']']

end Field
end JobPipeline
