import JobPipeline.Error
import JobPipeline.Field.Quoting
import JobPipeline.Source.Lexeme
import JobPipeline.Source.Reader

/-
The grammar of the pipeline text: statements that declare a task with its
attributes, and chains of arrows, perhaps all inside of a graph.

    fetch [type="http" method=GET url="https://x/y"]
    parse [type="jsonparse" data="$(fetch)" path="page"]
    fetch -> parse

Between any two words there may be blanks, line breaks and comments.
-/
namespace JobPipeline
namespace Source

/-- A statement, with the number of characters that are left where it begins. -/
inductive Statement where
  | task (name : String) (attributes : List (String × String)) (left : Nat)
  | chain (names : List String) (left : Nat)
deriving DecidableEq, Repr

namespace Reader

def gaps : Reader Unit := scanning fun cs => some ((), skipGaps cs)

def identifier : Reader String := rule .identifier (scanning identifier?)

def quoted : Reader String := rule .quoted <| scanning fun
  | '"' :: cs => (quotedInner? cs).map fun (inner, rest) =>
    (String.ofList (Field.unescapeQuoted inner), rest)
  | _ => none

def html : Reader String := rule .html <| scanning fun
  | '<' :: cs => (anglesInner? 0 cs).map fun (inner, rest) => (String.ofList inner, rest)
  | _ => none

def bare : Reader String := rule .bare <| scanning fun cs =>
  (bare? cs).map fun (value, rest) => (String.ofList value, rest)

def pair : Reader (String × String) := rule .attribute do
  let key ← identifier
  gaps
  mark "="
  gaps
  let value ← orElse quoted (orElse html bare)
  return (key, value)

/-- Attributes in brackets, each perhaps with a comma or semicolon behind it. -/
def attributes : Reader (List (String × String)) := rule .attributeList do
  mark "["
  let pairs ← many do
    gaps
    let p ← pair
    gaps
    let _ ← optional (orElse (mark ",") (mark ";"))
    return p
  gaps
  mark "]"
  return pairs

/-- A chain of arrows; attributes behind it are read and mean nothing. -/
def chain : Reader Statement := rule .edgeStatement do
  let here ← left
  let first ← identifier
  let arrow : Reader String := do
    gaps
    mark "->"
    gaps
    identifier
  let second ← arrow
  let others ← many arrow
  gaps
  let _ ← optional attributes
  return .chain (first :: second :: others) here

def task : Reader Statement := rule .nodeStatement do
  let here ← left
  let name ← identifier
  gaps
  let given ← optional attributes
  return .task name (given.getD []) here

/-- Statements, each perhaps with a semicolon behind it. -/
def statements : Reader (List Statement) := many do
  gaps
  let s ← orElse chain task
  gaps
  let _ ← optional (mark ";")
  return s

/-- Statements inside of a graph, which may have a name. -/
def graph : Reader (List Statement) := do
  scanning fun cs => (afterWord? "digraph" cs).map fun rest => ((), rest)
  gaps
  let _ ← optional identifier
  gaps
  mark "\x7b"
  gaps
  let all ← statements
  gaps
  mark "\x7d"
  return all

def endOfInput : Reader Unit := rule .endOfInput <| scanning fun
  | [] => some ((), [])
  | _ :: _ => none

def source : Reader (List Statement) := rule .source do
  gaps
  let all ← orElse graph statements
  gaps
  endOfInput
  return all

end Reader

/-- The place behind a text that starts at a place.  A carriage return counts as
a column unless a line feed follows it. -/
def Location.behind : Location → List Char → Location
  | place, [] => place
  | place, '\r' :: '\n' :: cs => Location.behind ⟨place.line + 1, 1⟩ cs
  | place, c :: cs =>
    Location.behind (if c = '\n' then ⟨place.line + 1, 1⟩ else ⟨place.line, place.column + 1⟩) cs

/-- The place in a text where so many characters are left. -/
def locate (cs : List Char) (left : Nat) : Location :=
  Location.behind ⟨1, 1⟩ (cs.take (cs.length - left))

/-- The statements of a text, or what was expected where reading got furthest. -/
def read (cs : List Char) : Except SourceError (List Statement) :=
  match Reader.source cs ⟨cs.length, []⟩ with
  | (some (all, _), _) => .ok all
  | (none, f) => .error ⟨.expected f.expected, some (locate cs f.left)⟩

end Source
end JobPipeline
