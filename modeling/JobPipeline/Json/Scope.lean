import JobPipeline.Json.Basic

/-
Which part of a JSON text is taken in.

A record takes its own members and passes over all others.  What is passed over
has to be JSON, and no more is asked of it: its numbers may be out of range, its
strings may hold halves of surrogate pairs, and it may be nested to any depth.
-/
namespace JobPipeline
namespace Json

inductive Scope where
  /-- The value is passed over. -/
  | nothing
  | everything
  /-- Known members, of an object by their names or of an array in their order. -/
  | record (members : List (String × Scope))
  /-- The same of all items of an array, or of all members of an object. -/
  | each (inner : Scope)
deriving Repr, Inhabited

namespace Scope

/-- A record whose members are taken whole. -/
def ofNames (names : List String) : Scope := .record (names.map fun name => (name, .everything))

def names : Scope → List String
  | .record members => members.map (·.1)
  | .nothing | .everything | .each _ => []

def member : Scope → String → Scope
  | .nothing, _ => .nothing
  | .everything, _ => .everything
  | .record members, name => (members.lookup name).getD .nothing
  | .each inner, _ => inner

def item : Scope → Scope
  | .nothing | .record [] => .nothing
  | .everything => .everything
  | .record ((_, inner) :: _) => inner
  | .each inner => inner

/-- What is taken of the items behind the first. -/
def behind : Scope → Scope
  | .record (_ :: members) => .record members
  | scope => scope

/-- How many brackets may be open inside of one, where `depth` may be open with
it.  Brackets that are passed over are not counted. -/
def inside? : Scope → (depth : Nat) → Option Nat
  | .nothing, depth => some depth
  | _, 0 => none
  | _, depth + 1 => some depth

end Scope
end Json
end JobPipeline
