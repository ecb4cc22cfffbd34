import JobPipeline.Calendar.Moment
import JobPipeline.Dict
import JobPipeline.Number.Shortest
import JobPipeline.Toml.Escape
import JobPipeline.Toml.Numeral
import JobPipeline.Toml.Text

/-
TOML values and their text.

A value comes from a document with the members of its tables as they are
written there; `settled?` is the value that it denotes.  A value is written on
one line where its strings allow it: with double quotes where nothing has to be
escaped, else with single ones, else in triple marks.
-/
namespace JobPipeline
namespace Toml

inductive Value where
  | string (s : String)
  | integer (n : Int)
  | real (r : Real)
  | bool (b : Bool)
  | moment (m : Calendar.Moment)
  | array (items : List Value)
  /-- As written in a document, and by increasing key in a settled value. -/
  | table (members : List (String × Value))
deriving Repr, Inhabited

/-- The longest run of one character in a text that begins behind `run` of
them. -/
def longestRun (mark : Char) : (run : Nat) → List Char → Nat
  | run, [] => run
  | run, c :: cs =>
    if c = mark then longestRun mark (run + 1) cs else max run (longestRun mark 0 cs)

/-- The text has a control character that only an escape can write. -/
def needsEscape (cs : List Char) : Bool :=
  cs.any fun c => !isPlain c && c != '\n'

/-- A control character as an escape. -/
def escapeControl (c : Char) : List Char :=
  if c = Char.ofNat 8 then ['\\', 'b']
  else if c = Char.ofNat 12 then ['\\', 'f']
  else escapeChar c

/-- A text between quotes, with escapes.  In triple marks line ends stay, and so
do up to two quotes in a row, of which `quotes` have been written. -/
def writtenBasic (triple : Bool) : (quotes : Nat) → List Char → List Char
  | _, [] => []
  | quotes, c :: cs =>
    if c = '"' then
      if triple && quotes < 2 then c :: writtenBasic triple (quotes + 1) cs
      else '\\' :: c :: writtenBasic triple 0 cs
    else if c = '\n' && triple then c :: writtenBasic triple 0 cs
    else if isPlain c && c != '\\' && c != '\t' then c :: writtenBasic triple 0 cs
    else escapeControl c ++ writtenBasic triple 0 cs

def writtenString (cs : List Char) : List Char :=
  let lines := cs.contains '\n'
  let tripled := fun (mark : Char) (inner : List Char) =>
    let marks := [mark, mark, mark]
    marks ++ (if lines then ['\n'] else []) ++ inner ++ marks
  let plainBasic := !needsEscape cs && !cs.contains '\\'
  if plainBasic && !cs.contains '"' && !lines then '"' :: writtenBasic false 0 cs ++ ['"']
  else if !needsEscape cs && !cs.contains '\'' && !lines then '\'' :: cs ++ ['\'']
  else if plainBasic && longestRun '"' 0 cs ≤ 2 then tripled '"' (writtenBasic true 0 cs)
  else if !needsEscape cs && longestRun '\'' 0 cs ≤ 2 then tripled '\'' cs
  else if lines then tripled '"' (writtenBasic true 0 cs)
  else '"' :: writtenBasic false 0 cs ++ ['"']

/-- A key, bare where its characters allow it. -/
def writtenKey (cs : List Char) : List Char :=
  if cs ≠ [] ∧ cs.all isKeyChar then cs
  else if cs.all isPlain && !cs.contains '"' && !cs.contains '\\' then
    '"' :: writtenBasic false 0 cs ++ ['"']
  else if cs.all isPlain && !cs.contains '\'' then '\'' :: cs ++ ['\'']
  else '"' :: writtenBasic false 0 cs ++ ['"']

def Real.text : Real → String
  | .number x => x.plainText
  | .notANumber => "nan"

namespace Value

/-- The name of the member by which a table stands for a moment. -/
def momentKey : String := "$__toml_private_datetime"

/-- The moment that the first member of a table tells. -/
def momentTold? : List (String × Value) → Option Calendar.Moment
  | (_, .string s) :: _ => Calendar.Moment.ofText? s.toList
  | _ => none

/-- The first member says that the table stands for a moment. -/
def standsForMoment (members : List (String × Value)) : Bool :=
  members.head?.any fun m => m.1 = momentKey

mutual
/-- The value denoted: tables by key, and a moment for a table that stands for
one, which must then tell it.  Its other members are not looked at. -/
def settled? : Value → Option Value
  | .array items => (settledItems? items).map .array
  | .table members =>
    if standsForMoment members then (momentTold? members).map .moment
    else (settledMembers? members).map fun members => .table (Dict.ofList members).entries
  | value => some value

def settledItems? : List Value → Option (List Value)
  | [] => some []
  | item :: items =>
    match settled? item, settledItems? items with
    | some item, some items => some (item :: items)
    | _, _ => none

def settledMembers? : List (String × Value) → Option (List (String × Value))
  | [] => some []
  | (key, value) :: members =>
    match settled? value, settledMembers? members with
    | some value, some members => some ((key, value) :: members)
    | _, _ => none
end

mutual
/-- The text of a value on one line. -/
def text : Value → String
  | .string s => String.ofList (writtenString s.toList)
  | .integer n => toString n
  | .real r => r.text
  | .bool true => "true"
  | .bool false => "false"
  | .moment m => String.ofList m.text
  | .array items => "[" ++ String.intercalate ", " (itemTexts items) ++ "]"
  | .table [] => "\x7b\x7d"
  | .table (member :: members) =>
    "\x7b " ++ String.intercalate ", " (memberTexts (member :: members)) ++ " \x7d"

def itemTexts : List Value → List String
  | [] => []
  | item :: items => text item :: itemTexts items

def memberTexts : List (String × Value) → List String
  | [] => []
  | (key, value) :: members =>
    (String.ofList (writtenKey key.toList) ++ " = " ++ text value) :: memberTexts members
end

/-- The text of a value that stands by itself: a moment is then written as the
table that stands for it. -/
def shown : Value → String
  | .moment m => text (.table [(momentKey, .string (String.ofList m.text))])
  | value => value.text

end Value
end Toml
end JobPipeline
