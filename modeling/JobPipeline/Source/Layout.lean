import JobPipeline.Graph.Edit
import JobPipeline.Source.Parsed

/-
The task graph of a parsed pipeline.

Each task is placed one row below its lowest source, and the tasks of a row
stand side by side in the order of their declarations.
-/
namespace JobPipeline
namespace Layout

def columnWidth : Nat := 250

def rowHeight : Nat := 150

def rowOf (rows : Dict Nat) (name : String) : Nat := (rows.find? name).getD 0

/-- Moves the target of an edge below its source. -/
def lower (rows : Dict Nat) (edge : ParsedEdge) : Dict Nat :=
  let next := rowOf rows edge.source + 1
  if rowOf rows edge.target < next then rows.insert edge.target next else rows

/-- Goes over all edges again and again until nothing moves, at most `fuel`
times, so that a circle of edges comes to an end as well. -/
def settle (edges : List ParsedEdge) : (fuel : Nat) → Dict Nat → Dict Nat
  | 0, rows => rows
  | fuel + 1, rows =>
    let moved := edges.foldl lower rows
    if moved.entries = rows.entries then rows else settle edges fuel moved

/-- The row of every task that some edge leads to. -/
def rows (p : ParsedSource) : Dict Nat := settle p.edges p.tasks.length Dict.empty

def taskRows (p : ParsedSource) : List Nat :=
  let all := rows p
  p.tasks.map fun t => rowOf all t.name

/-- Column and row of each element of a list of rows, behind rows already
taken. -/
def placesFrom : (taken rows : List Nat) → List (Nat × Nat)
  | _, [] => []
  | taken, row :: rest => (taken.count row, row) :: placesFrom (row :: taken) rest

/-- Column and row of the tasks, in the order of their declarations. -/
def places (p : ParsedSource) : List (Nat × Nat) := placesFrom [] (taskRows p)

def position (place : Nat × Nat) : Position :=
  ⟨Binary64.ofNat (place.1 * columnWidth), Binary64.ofNat (place.2 * rowHeight)⟩

end Layout

namespace ParsedSource

/-- Adds the tasks, each with its attributes over the kind's defaults. -/
def addTasks : List (ParsedTask × (Nat × Nat)) → TaskGraph → Except JobError TaskGraph
  | [], g => .ok g
  | (task, place) :: rest, g =>
    match g.addNamed task.kind task.name (Layout.position place) none with
    | (.error error, _) => .error error
    | (.ok id, g) =>
      let values := task.attributes.entries.map fun (key, text) => (key, text.raw)
      addTasks rest (g.setFields id values).2

def addEdges : List ParsedEdge → TaskGraph → Except JobError TaskGraph
  | [], g => .ok g
  | edge :: rest, g =>
    match g.connectNamed edge.source edge.target with
    | (.error error, _) => .error error
    | (.ok _, g) => addEdges rest g

/-- The task graph of a parsed pipeline; ids are given in the order of the
declarations. -/
def graph (p : ParsedSource) : Except JobError TaskGraph :=
  match addTasks (p.tasks.zip (Layout.places p)) TaskGraph.empty with
  | .error error => .error error
  | .ok g => addEdges p.edges g

end ParsedSource

namespace TaskGraph

def ofSource (text : String) : Except JobError TaskGraph :=
  match Source.parse text with
  | .error error => .error (.parse error)
  | .ok parsed => parsed.graph

end TaskGraph
end JobPipeline
