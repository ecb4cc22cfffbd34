import JobPipeline.Task.Identifier
import JobPipeline.Task.Node

/-
The task graph of a job.

A task has two handles: an id, given when it is added and never given again, and
a name, which can be changed and which the spec text uses.  Edges carry both.
The graph keeps an index from name to id, and every edit that touches a name
keeps the index, the edges and the neighbours' lists in step.
-/
namespace JobPipeline

structure Edge where
  id : String
  source : String
  target : String
  sourceName : String
  targetName : String
deriving DecidableEq, Repr

namespace Edge

def touches (edge : Edge) (id : String) : Bool := edge.source = id || edge.target = id

def renamed (edge : Edge) (id name : String) : Edge :=
  { edge with
    sourceName := if edge.source = id then name else edge.sourceName
    targetName := if edge.target = id then name else edge.targetName }

end Edge

structure TaskGraph where
  /-- In the order in which they were added. -/
  nodes : List Node
  edges : List Edge
  /-- From task name to task id. -/
  index : Dict String
  /-- The number of the last id.  A snapshot keeps 64 bits of it (`Numeral.most64`), and no
  edit looks whether there is room for one more. -/
  nodesAdded : Nat
  edgesAdded : Nat
deriving DecidableEq, Repr

namespace TaskGraph

def empty : TaskGraph := ⟨[], [], Dict.empty, 0, 0⟩

instance : Inhabited TaskGraph := ⟨empty⟩

def node? (g : TaskGraph) (id : String) : Option Node := g.nodes.find? fun n => n.id = id

def hasNode (g : TaskGraph) (id : String) : Bool := (g.node? id).isSome

def idOf? (g : TaskGraph) (name : String) : Option String := g.index.find? name

def named? (g : TaskGraph) (name : String) : Option Node := (g.idOf? name).bind g.node?

def hasName (g : TaskGraph) (name : String) : Bool := g.index.contains name

/-- Changes the first element that is found. -/
def updateFirst {α : Type} (found : α → Bool) (f : α → α) : List α → List α
  | [] => []
  | a :: as => if found a then f a :: as else a :: updateFirst found f as

def updateNode (g : TaskGraph) (id : String) (f : Node → Node) : TaskGraph :=
  { g with nodes := updateFirst (fun n => n.id = id) f g.nodes }

def send (g : TaskGraph) (id : String) (event : NodeEvent) :
    Except JobError (Option NodeEffect) × TaskGraph :=
  match g.node? id with
  | none => (.error (.unknownNode id), g)
  | some node => (.ok (node.send event).2, g.updateNode id fun n => (n.send event).1)

/-- Sends an event to a task if it is there, for edits that know it is. -/
def notify (g : TaskGraph) (id : String) (event : NodeEvent) : TaskGraph := (g.send id event).2

/-- The name given to a task that none was chosen for. -/
def defaultName (n : Nat) : String := "task_" ++ toString n

/-- The first number from `n` on whose default name is free. -/
def firstFree (g : TaskGraph) : (fuel n : Nat) → Nat
  | 0, n => n
  | fuel + 1, n => if g.hasName (defaultName n) then g.firstFree fuel (n + 1) else n

/-- The default name with the least number that no task has.  One more candidate
than there are names is always enough. -/
def nextName (g : TaskGraph) : String :=
  defaultName (g.firstFree g.index.entries.length 1)

/-- Why a name cannot be given to a task; the task that has it already may keep
it. -/
def nameError? (g : TaskGraph) (name : String) (owner : Option String) : Option JobError :=
  if !Identifier.isValid name then some (.invalidIdentifier name)
  else match g.idOf? name with
    | some holder =>
      if owner = some holder then none else some (.duplicateIdentifier name)
    | none => none

/-- Looks for a task along the edges.  `seen` holds the tasks whose edges have
been followed, `queue` those to come; no edge is followed twice, so one step for
every edge and one for the start are enough. -/
def searchFrom (edges : List Edge) (goal : String) :
    (fuel : Nat) → (seen queue : List String) → Bool
  | 0, _, _ => false
  | _, _, [] => false
  | fuel + 1, seen, current :: queue =>
    if current = goal then true
    else if current ∈ seen then searchFrom edges goal fuel seen queue
    else
      let next := (edges.filter fun e => e.source = current).map Edge.target
      searchFrom edges goal fuel (current :: seen) (queue ++ next)

/-- Edges lead from one task to another, or the two are the same. -/
def reaches (g : TaskGraph) (start goal : String) : Bool :=
  searchFrom g.edges goal (g.edges.length + 1) [] [start]

end TaskGraph
end JobPipeline
