import JobPipeline.Graph.Edit
import JobPipeline.Graph.Json
import JobPipeline.Job.Basic
import JobPipeline.Job.Json
import JobPipeline.Json.Printer
import JobPipeline.Task.Json

/-
Snapshots: the part of a job that is kept.

A snapshot holds what a user has made: the configuration, each task with its
fields, mock and place, the edges and the counters.  Where a task stands in an
evaluation is not kept, so every task of a restored job is idle.
-/
namespace JobPipeline

open Json (record? needed? given? string? word32? word64? list? dict?)

/-- What is kept of a task. -/
structure NodeSnapshot where
  id : String
  name : String
  kind : TaskKind
  fields : Dict String
  mock : Mock
  position : Position
deriving DecidableEq, Repr

/-- How many tasks and edges have been added in all. -/
structure Counters where
  nodesAdded : Nat
  edgesAdded : Nat
deriving DecidableEq, Repr

structure Snapshot where
  format : Nat
  config : JobConfig
  nodes : List NodeSnapshot
  edges : List Edge
  counters : Counters
deriving DecidableEq, Repr

namespace NodeSnapshot

def of (node : Node) : NodeSnapshot :=
  ⟨node.id, node.name, node.kind, node.fields, node.mock, node.position⟩

/-- The task as a new one with the fields and the mock that were kept. -/
def restore (s : NodeSnapshot) : Node :=
  { Node.fresh s.id s.name s.kind s.position with fields := s.fields, mock := s.mock }

def toJson (s : NodeSnapshot) : Json :=
  .object [("id", .string s.id), ("customId", .string s.name), ("kind", s.kind.toJson),
    ("taskSpecific", .ofDict (s.fields.map Json.string)), ("mock", s.mock.toJson),
    ("position", s.position.toJson)]

def scope : Json.Scope :=
  .record [("id", .everything), ("customId", .everything), ("kind", .everything),
    ("taskSpecific", .everything), ("mock", Mock.scope), ("position", Position.scope)]

def ofJson? (json : Json) : Option NodeSnapshot := do
  let members ← record? scope json
  return { id := ← needed? members "id" string?
           name := ← needed? members "customId" string?
           kind := ← needed? members "kind" TaskKind.ofJson?
           fields := ← given? members "taskSpecific" (dict? string?) Dict.empty
           mock := ← given? members "mock" Mock.ofJson? Mock.off
           position := ← given? members "position" Position.ofJson? Position.origin }

end NodeSnapshot

namespace Counters

def toJson (c : Counters) : Json :=
  .object [("nodesAdded", .ofNat c.nodesAdded), ("edgesAdded", .ofNat c.edgesAdded)]

def scope : Json.Scope := .ofNames ["nodesAdded", "edgesAdded"]

def ofJson? (json : Json) : Option Counters := do
  let members ← record? scope json
  return { nodesAdded := ← needed? members "nodesAdded" word64?
           edgesAdded := ← needed? members "edgesAdded" word64? }

end Counters

namespace Snapshot

def currentFormat : Nat := 1

def capture (job : Job) : Snapshot :=
  { format := currentFormat
    config := job.config
    nodes := job.graph.nodes.map NodeSnapshot.of
    edges := job.graph.edges
    counters := ⟨job.graph.nodesAdded, job.graph.edgesAdded⟩ }

/-- The name of the first task with an id. -/
def nameOf? (nodes : List Node) (id : String) : Option String :=
  (nodes.find? fun n => n.id = id).map Node.name

/-- Tells the tasks at both ends of an edge of each other. -/
def attach (edge : Edge) (node : Node) : Node :=
  let node := if node.id = edge.source then (node.send (.addOutgoing edge.targetName)).1 else node
  if node.id = edge.target then (node.send (.addIncoming edge.sourceName)).1 else node

/-- Draws the edges in order.  An edge takes the names that its tasks have now;
one whose task is missing stays as it is and is refused with the whole. -/
def draw : List Edge → List Node → List Node × List Edge
  | [], nodes => (nodes, [])
  | edge :: rest, nodes =>
    match nameOf? nodes edge.source, nameOf? nodes edge.target with
    | some sourceName, some targetName =>
      let edge := { edge with sourceName, targetName }
      let (nodes, edges) := draw rest (nodes.map (attach edge))
      (nodes, edge :: edges)
    | _, _ =>
      let (nodes, edges) := draw rest nodes
      (nodes, edge :: edges)

/-- The job that was captured, with every task idle. -/
def restore (s : Snapshot) : Except JobError Job :=
  let (nodes, edges) := draw s.edges (s.nodes.map NodeSnapshot.restore)
  match TaskGraph.ofParts nodes edges s.counters.nodesAdded s.counters.edgesAdded with
  | .error error => .error error
  | .ok graph => .ok ⟨s.config, graph⟩

def toJson (s : Snapshot) : Json :=
  .object [("formatVersion", .ofNat s.format), ("config", s.config.toJson),
    ("nodes", .array (s.nodes.map NodeSnapshot.toJson)),
    ("edges", .array (s.edges.map Edge.toJson)), ("counters", s.counters.toJson)]

def scope : Json.Scope :=
  .record [("formatVersion", .everything), ("config", JobConfig.scope),
    ("nodes", .each NodeSnapshot.scope), ("edges", .each Edge.scope),
    ("counters", Counters.scope)]

def ofJson? (json : Json) : Option Snapshot := do
  let members ← record? scope json
  return { format := ← given? members "formatVersion" word32? currentFormat
           config := ← needed? members "config" JobConfig.ofJson?
           nodes := ← given? members "nodes" (list? NodeSnapshot.ofJson?) []
           edges := ← given? members "edges" (list? Edge.ofJson?) []
           counters := ← given? members "counters" Counters.ofJson? ⟨0, 0⟩ }

/-- The snapshot as text, one member a line. -/
def text (s : Snapshot) : String := s.toJson.pretty 0

def read (text : String) : Except JobError Snapshot :=
  match Json.readAs? scope ofJson? text with
  | none => .error (.serialization none)
  | some s => .ok s

end Snapshot
end JobPipeline
