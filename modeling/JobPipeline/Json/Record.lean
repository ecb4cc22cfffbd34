import JobPipeline.Json.Reader

/-
Records in JSON.

A record is an object with known members, or an array of the members' values in
their order.  Members with other names are passed over, one written twice is
refused, and so is one that is missing, unless it has a default or is optional.
-/
namespace JobPipeline
namespace Json

/-- The known members of a record. -/
def record? (scope : Scope) : Json → Option (List (String × Json))
  | .object members =>
    let known := members.filter fun m => scope.names.contains m.1
    if (known.map (·.1)).Nodup then some known else none
  | .array items =>
    if items.length ≤ scope.names.length then some (scope.names.zip items) else none
  | _ => none

section Members

variable {α : Type} (members : List (String × Json)) (name : String) (read : Json → Option α)

def needed? : Option α := (members.lookup name).bind read

/-- A member with a default for when it is missing. -/
def given? (default : α) : Option α :=
  match members.lookup name with
  | none => some default
  | some json => read json

/-- A member that may be missing or null. -/
def optional? : Option (Option α) :=
  match members.lookup name with
  | none | some .null => some none
  | some json => (read json).map some

end Members

def string? : Json → Option String
  | .string s => some s
  | _ => none

def bool? : Json → Option Bool
  | .bool b => some b
  | _ => none

/-- A whole number from zero to `most`. -/
def natural? (most : Nat) : Json → Option Nat
  | .number (.whole n) => if 0 ≤ n ∧ n.toNat ≤ most then some n.toNat else none
  | _ => none

def word64? : Json → Option Nat := natural? (twoTo 64 - 1)

def word32? : Json → Option Nat := natural? (twoTo 32 - 1)

/-- A number of either form as a binary64. -/
def binary64? : Json → Option Binary64
  | .number (.whole n) => some (Binary64.ofInt n)
  | .number (.real x) => some x
  | _ => none

/-- Any value, in canonical form. -/
def any? (json : Json) : Option Json := some json.canonical

def list? {α : Type} (read : Json → Option α) : Json → Option (List α)
  | .array items => items.mapM read
  | _ => none

/-- An object with any keys; the last of equal keys wins. -/
def dict? {α : Type} (read : Json → Option α) : Json → Option (Dict α)
  | .object members => (members.mapM fun m => (read m.2).map fun a => (m.1, a)).map Dict.ofList
  | _ => none

/-- One of a fixed set of words, either as a string or as the only key of an
object whose value is null. -/
def word? {α : Type} (ofWord : String → Option α) : Json → Option α
  | .string s => ofWord s
  | .object [(s, .null)] => ofWord s
  | _ => none

end Json
end JobPipeline
