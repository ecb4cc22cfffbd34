import JobPipeline.Graph.Edit

/-
Checking a task graph.

The complaints are listed in a fixed order: what each task does not satisfy,
then tokens that name no task, then whether the edges go round in a circle.
-/
namespace JobPipeline

inductive ValidationError where
  | cycleDetected
  | invalidField (task field message : String)
  | danglingReference (task reference : String)
  /-- A kind of task that is not written into the spec text. -/
  | unsupportedKind (task : String) (kind : TaskKind)
  | invalidJobField (key value : String)
deriving DecidableEq, Repr

namespace ValidationError

def kindName : ValidationError → String
  | .cycleDetected => "CycleDetected"
  | .invalidField .. => "InvalidField"
  | .danglingReference .. => "DanglingReference"
  | .unsupportedKind .. => "UnsupportedTaskKind"
  | .invalidJobField .. => "InvalidJobField"

def message : ValidationError → String
  | .cycleDetected => "Cycle detected in graph"
  | .invalidField task field message => "Task '" ++ task ++ "' field '" ++ field ++ "': " ++ message
  | .danglingReference task reference =>
    "Task '" ++ task ++ "' references unknown task '" ++ reference ++ "'"
  | .unsupportedKind task kind =>
    "Task '" ++ task ++ "' has type '" ++ kind.name ++ "' which is not compiled"
  | .invalidJobField key value => "Job field '" ++ key ++ "' has invalid value '" ++ value ++ "'"

end ValidationError

/-- Variable spaces that tokens can name besides tasks. -/
def jobSpaces : List String := ["jobSpec", "jobRun"]

namespace Node

def errors (node : Node) : List ValidationError :=
  (if node.kind.isWritten then [] else [.unsupportedKind node.name node.kind]) ++
    node.fieldErrors.map fun e => .invalidField node.name e.field e.message

/-- The names that a task's fields refer to, in the order of the field keys. -/
def referenceIds (node : Node) : List String :=
  node.fields.values.flatMap fun raw => (Field.findReferences raw).map Reference.id

end Node

namespace TaskGraph

/-- Tokens that name neither a task nor a variable space. -/
def danglingReferences (g : TaskGraph) : List ValidationError :=
  let known := g.nodes.map Node.name
  g.nodes.flatMap fun node =>
    (node.referenceIds.filter fun id => !(known.contains id || jobSpaces.contains id)).map
      fun id => .danglingReference node.name id

/-- For every task, how many edges lead to it. -/
def inDegrees (g : TaskGraph) : Dict Nat :=
  let zeros := Dict.ofList (g.nodes.map fun node => (node.id, 0))
  g.edges.foldl (fun degrees e => degrees.insert e.target ((degrees.find? e.target).getD 0 + 1)) zeros

/-- One edge less leads to a task, which is freed if it was the last.  There is no
answer if no edge was left to take. -/
def takeEdge? (degrees : Dict Nat) (target : String) : Option (Dict Nat × List String) :=
  match degrees.find? target with
  | none => some (degrees, [])
  | some 0 => none
  | some (n + 1) => some (degrees.insert target n, if n = 0 then [target] else [])

/-- The edges to some tasks are taken in turn. -/
def takeEdges? : List String → Dict Nat → Option (Dict Nat × List String)
  | [], degrees => some (degrees, [])
  | target :: rest, degrees => do
    let (degrees, freed) ← takeEdge? degrees target
    let (degrees, more) ← takeEdges? rest degrees
    return (degrees, freed ++ more)

/-- How many tasks are visited, when a visit takes the edges that begin at a task
and the tasks it frees join the queue. -/
def countVisits? (edges : List Edge) :
    (fuel : Nat) → (queue : List String) → Dict Nat → Option Nat
  | 0, _, _ => some 0
  | _, [], _ => some 0
  | fuel + 1, current :: queue, degrees => do
    let targets := (edges.filter fun e => e.source = current).map Edge.target
    let (degrees, freed) ← takeEdges? targets degrees
    let n ← countVisits? edges fuel (queue ++ freed) degrees
    return n + 1

/-- The visits that begin with the tasks no edge leads to, as `order` lists them.
No task is freed twice, so one step for every task is enough. -/
def visited? (g : TaskGraph) (order : List String) : Option Nat :=
  let ready := order.filter fun id => g.inDegrees.find? id = some 0
  countVisits? g.edges g.inDegrees.keys.length ready g.inDegrees

/-- A task on a cycle is never freed, and neither is one behind it. -/
def hasCycle (g : TaskGraph) (order : List String) : Bool :=
  (g.visited? order).any fun n => n < g.inDegrees.keys.length

/-- The complaints, when the search for cycles comes across the tasks in this order. -/
def errorsIn (g : TaskGraph) (order : List String) : List ValidationError :=
  g.nodes.flatMap Node.errors ++ g.danglingReferences ++
    (if g.hasCycle order then [.cycleDetected] else [])

def errors (g : TaskGraph) : List ValidationError := g.errorsIn g.inDegrees.keys

end TaskGraph
end JobPipeline
