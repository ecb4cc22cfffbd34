import JobPipeline.Json.Printer
import JobPipeline.Json.Scope
import JobPipeline.Text.Hidden

/-
Why a JSON value has not the shape that is asked for.

A record is read as an object with known members, or as an array of their values
in order.  What a present member holds is looked at before one is found missing,
so the fault that is told is the first one from the left, and only a value
without such a fault is told what it lacks.
-/
namespace JobPipeline
namespace Json

inductive ShapeFault where
  | kind (found : Json) (expected : String)
  | missing (member : String)
  | repeated (member : String)
  | short (length : Nat) (expected : String)
  | long (length : Nat)
deriving DecidableEq, Repr

namespace ShapeFault

def hexDigits (n : Nat) : List Char := Nat.toDigits 16 n

/-- A character of a string as a message shows it. -/
def shownChar (c : Char) : List Char :=
  if c = '"' then ['\\', '"']
  else if c = '\\' then ['\\', '\\']
  else if c = '\n' then ['\\', 'n']
  else if c = '\r' then ['\\', 'r']
  else if c = '\t' then ['\\', 't']
  else if c.toNat = 0 then ['\\', '0']
  else if Text.isHidden c then ['\\', 'u', '\x7b'] ++ hexDigits c.toNat ++ ['\x7d']
  else [c]

def shown : Json → String
  | .null => "null"
  | .bool true => "boolean `true`"
  | .bool false => "boolean `false`"
  | .number (.whole n) => "integer `" ++ toString n ++ "`"
  | .number (.real x) => "floating point `" ++ x.jsonText ++ "`"
  | .string s => String.ofList ("string \"".toList ++ s.toList.flatMap shownChar ++ ['"'])
  | .array _ => "sequence"
  | .object _ => "map"

def message : ShapeFault → String
  | .kind found expected => "invalid type: " ++ shown found ++ ", expected " ++ expected
  | .missing member => "missing field `" ++ member ++ "`"
  | .repeated member => "duplicate field `" ++ member ++ "`"
  | .short length expected => "invalid length " ++ toString length ++ ", expected " ++ expected
  | .long length =>
    "invalid length " ++ toString length ++ ", expected fewer elements in array"

end ShapeFault

/-- The known members of a value, and what to say of one that it lacks. -/
structure Record where
  members : List (String × Json)
  absent : String → ShapeFault

namespace Record

variable {α : Type}

/-- A member as the reader understands it, if there is one. -/
def member? (r : Record) (name : String) (read : Json → Except ShapeFault α) :
    Except ShapeFault (Option α) :=
  match r.members.lookup name with
  | none => .ok none
  | some json => (read json).map some

/-- Looks at the members in the order in which they stand, and tells the first
fault of one that is read by its name. -/
def inspect (r : Record) (fault? : String → Json → Option ShapeFault) :
    Except ShapeFault Unit :=
  match r.members.findSome? fun m => fault? m.1 m.2 with
  | some fault => .error fault
  | none => .ok ()

def need (r : Record) (name : String) : Option α → Except ShapeFault α
  | some a => .ok a
  | none => .error (r.absent name)

/-- The first of some members that stands there a second time. -/
def repeated? : List (String × Json) → (seen : List String) → Option String
  | [], _ => none
  | (name, _) :: members, seen =>
    if seen.contains name then some name else repeated? members (name :: seen)

/-- Reads a value as a record of a kind. -/
def read (kind : String) (scope : Scope) (build : Record → Except ShapeFault α) :
    Json → Except ShapeFault α
  | .object members =>
    let known := members.filter fun m => scope.names.contains m.1
    match repeated? known [] with
    | some name => .error (.repeated name)
    | none => build ⟨known, .missing⟩
  | .array items => do
    let names := scope.names
    let plural := if names.length = 1 then "" else "s"
    let expected := kind ++ " with " ++ toString names.length ++ " element" ++ plural
    let a ← build ⟨names.zip items, fun _ => .short items.length expected⟩
    if items.length ≤ names.length then return a else throw (.long items.length)
  | json => .error (.kind json kind)

end Record

def asString : Json → Except ShapeFault String
  | .string s => .ok s
  | json => .error (.kind json "a string")

def asBool : Json → Except ShapeFault Bool
  | .bool b => .ok b
  | json => .error (.kind json "a boolean")

def asOptional {α : Type} (read : Json → Except ShapeFault α) : Json → Except ShapeFault (Option α)
  | .null => .ok none
  | json => (read json).map some

def asDict : Json → Except ShapeFault (Dict Json)
  | .object members => .ok (Dict.ofList (canonicalMembers members))
  | json => .error (.kind json "a map")

def faultOf? {α : Type} (read : Json → Except ShapeFault α) (json : Json) : Option ShapeFault :=
  match read json with
  | .error fault => some fault
  | .ok _ => none

def asList {α : Type} (read : Json → Except ShapeFault α) : Json → Except ShapeFault (List α)
  | .array items => items.mapM read
  | json => .error (.kind json "a sequence")

end Json
end JobPipeline
