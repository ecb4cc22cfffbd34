import JobPipeline.Toml.Value

/-
Building the tables of a TOML document.

Keys and headers may come in any order, but each table is defined once: by a
header, by dotted keys, or by braces.  What stands under a key therefore carries
how it came to be, which decides what may still be added to it.
-/
namespace JobPipeline
namespace Toml

/-- How a table came to be. -/
inductive Origin where
  /-- By a header of its own. -/
  | header
  /-- By the header of a table inside it; it may still get its own. -/
  | outline
  /-- By dotted keys; more of them may follow. -/
  | dotted
deriving DecidableEq, Repr

/-- What stands under a key. -/
inductive Entry where
  /-- A value.  A table in braces is one, nothing can be added to it. -/
  | value (v : Value)
  | table (origin : Origin) (members : List (String × Entry))
  /-- The tables of a list of headers, the last one first. -/
  | tables (last : List (String × Entry)) (before : List (List (String × Entry)))
deriving Repr, Inhabited

abbrev Tree := List (String × Entry)

namespace Tree

/-- Puts an entry in the place of the one that has the key, or behind all. -/
def replace (key : String) (entry : Entry) : Tree → Tree
  | [] => [(key, entry)]
  | (k, e) :: rest => if k = key then (k, entry) :: rest else (k, e) :: replace key entry rest

/-- Puts a value under a dotted key.  `direct` says whether the value may stand
in this tree itself: behind a point it may only in a table that dotted keys
made. -/
def assign (value : Value) : (path : List String) → (direct : Bool) → Tree → Option Tree
  | [], _, _ => none
  | [key], direct, tree =>
    if direct && (tree.lookup key).isNone then some (tree ++ [(key, .value value)]) else none
  | key :: path, _, tree =>
    match tree.lookup key with
    | none =>
      (assign value path true []).map fun members => tree ++ [(key, .table .dotted members)]
    | some (.value _) => none
    | some (.table .header _) => none
    | some (.table origin members) =>
      (assign value path (origin = .dotted) members).map fun members =>
        tree.replace key (.table origin members)
    | some (.tables last before) =>
      (assign value path false last).map fun last => tree.replace key (.tables last before)

/-- Changes the tree that a path of headers leads to; tables that are missing on
the way are outlined. -/
def within (change : Tree → Option Tree) : (path : List String) → Tree → Option Tree
  | [], tree => change tree
  | key :: path, tree =>
    match tree.lookup key with
    | none =>
      (within change path []).map fun members => tree ++ [(key, .table .outline members)]
    | some (.value _) => none
    | some (.table origin members) =>
      (within change path members).map fun members => tree.replace key (.table origin members)
    | some (.tables last before) =>
      (within change path last).map fun last => tree.replace key (.tables last before)

/-- Defines the table of a header.  It stands behind all that is there already,
even if it was outlined before. -/
def define (key : String) (tree : Tree) : Option Tree :=
  match tree.lookup key with
  | none => some (tree ++ [(key, .table .header [])])
  | some (.table .outline members) =>
    some ((tree.filter fun m => m.1 ≠ key) ++ [(key, .table .header members)])
  | some _ => none

/-- Adds a table to the list of a header. -/
def append (key : String) (tree : Tree) : Option Tree :=
  match tree.lookup key with
  | none => some (tree ++ [(key, .tables [] [])])
  | some (.tables last before) => some (tree.replace key (.tables [] (last :: before)))
  | some _ => none

end Tree

mutual
/-- The value of an entry, with all members as they were written. -/
def Entry.finish : Entry → Value
  | .value v => v
  | .table _ members => .table (finishMembers members)
  | .tables last before => .array ((Value.table (finishMembers last) :: finishTables before).reverse)

def finishMembers : List (String × Entry) → List (String × Value)
  | [] => []
  | (key, entry) :: rest => (key, entry.finish) :: finishMembers rest

def finishTables : List (List (String × Entry)) → List Value
  | [] => []
  | members :: rest => .table (finishMembers members) :: finishTables rest
end

/-- The table that a whole tree denotes. -/
def Tree.finish? (tree : Tree) : Option (Dict Value) :=
  (Value.settledMembers? (finishMembers tree)).map Dict.ofList

end Toml
end JobPipeline
