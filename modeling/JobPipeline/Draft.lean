import JobPipeline.Graph.Edit
import JobPipeline.Source.Layout

/-
Drafting a pipeline step by step.

A draft takes each step as it comes.  A step that fails leaves the graph as it
was; the first such failure is kept for whoever wants the pipeline only if every
step succeeded.
-/
namespace JobPipeline

structure Draft where
  graph : TaskGraph
  /-- The task that was added last, unless that failed. -/
  last : Option String
  error : Option JobError
deriving DecidableEq, Repr

namespace Draft

def empty : Draft := ⟨TaskGraph.empty, none, none⟩

/-- Takes a step, and keeps its failure if it is the first. -/
def step {α : Type} (d : Draft) (edit : TaskGraph → Edited α) : Option α × Draft :=
  match edit d.graph with
  | (.ok a, graph) => (some a, { d with graph })
  | (.error error, graph) => (none, { d with graph, error := d.error.or (some error) })

def addTask (d : Draft) (name : String) (kind : TaskKind) : Draft :=
  let below := d.graph.nodes.length * Layout.rowHeight
  let position : Position := ⟨Binary64.zero, Binary64.ofNat below⟩
  let (added, d) := d.step fun g => g.addNamed kind name position none
  { d with last := added }

def onLast (d : Draft) (edit : String → TaskGraph → Edited Unit) : Draft :=
  match d.last with
  | none => d
  | some id => (d.step (edit id)).2

def setField (d : Draft) (key value : String) : Draft :=
  d.onLast fun id g => g.setFields id [(key, value)]

def setMock (d : Draft) (payload : String) : Draft :=
  d.onLast fun id g => g.setMock id (Mock.ofPayload payload)

def connect (d : Draft) (source target : String) : Draft :=
  (d.step fun g => g.connectNamed source target).2

/-- The graph, if every step succeeded. -/
def finish (d : Draft) : Except JobError TaskGraph :=
  match d.error with
  | some error => .error error
  | none => .ok d.graph

end Draft
end JobPipeline
