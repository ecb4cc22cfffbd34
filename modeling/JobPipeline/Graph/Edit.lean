import JobPipeline.Graph.Basic

/-
Edits of a task graph.

An edit answers with a value or an error, and with the graph behind it.  What
can be checked is checked before anything is changed.  Tasks are told of a change
after it was made, and an edit that has to tell a task that is missing stops there.
-/
namespace JobPipeline

/-- Which end of the new edge a new task is. -/
inductive EdgeRole where
  | source
  | target
deriving DecidableEq, Repr

/-- A task that a new task is connected to as it is added. -/
structure Attachment where
  neighbour : String
  role : EdgeRole
deriving DecidableEq, Repr

/-- What a rename does with tokens in field text. -/
inductive RenamePolicy where
  | keepTokens
  | retargetTokens
deriving DecidableEq, Repr

/-- The answer of an edit and the graph it leaves. -/
abbrev Edited (α : Type) := Except JobError α × TaskGraph

namespace TaskGraph

/-- Sends events to tasks one after another; stops at a task that is missing. -/
def sendAll : List (String × NodeEvent) → TaskGraph → Edited Unit
  | [], g => (.ok (), g)
  | (id, event) :: rest, g =>
    match g.send id event with
    | (.error error, g) => (.error error, g)
    | (.ok _, g) => sendAll rest g

/-- Adds an edge between two tasks, and tells them. -/
def insertEdge (g : TaskGraph) (source target : Node) : Edited String :=
  let n := g.edgesAdded + 1
  let id := "edge_" ++ toString n
  let edge : Edge := ⟨id, source.id, target.id, source.name, target.name⟩
  let g := { g with edges := g.edges ++ [edge], edgesAdded := n }
  let (answer, g) := sendAll
    [(source.id, .addOutgoing target.name), (target.id, .addIncoming source.name)] g
  (answer.map fun _ => id, g)

def addNamed (g : TaskGraph) (kind : TaskKind) (name : String) (position : Position)
    (attachment : Option Attachment) : Edited String :=
  match g.nameError? name none with
  | some error => (.error error, g)
  | none =>
    let n := g.nodesAdded + 1
    let id := "node_" ++ toString n
    let node := Node.fresh id name kind position
    let grown :=
      { g with nodes := g.nodes ++ [node], index := g.index.insert name id, nodesAdded := n }
    match attachment with
    | none => (.ok id, grown)
    | some a =>
      match g.node? a.neighbour with
      | none => (.error (.unknownNode a.neighbour), g)
      | some neighbour =>
        let (answer, g) := match a.role with
          | .source => grown.insertEdge node neighbour
          | .target => grown.insertEdge neighbour node
        (answer.map fun _ => id, g)

def add (g : TaskGraph) (kind : TaskKind) (position : Position)
    (attachment : Option Attachment) : Edited String :=
  g.addNamed kind g.nextName position attachment

/-- Connects two tasks, unless the edge would be a loop, a repetition or the
last of a cycle. -/
def connect (g : TaskGraph) (source target : String) : Edited String :=
  match g.node? source, g.node? target with
  | none, _ => (.error (.unknownNode source), g)
  | _, none => (.error (.unknownNode target), g)
  | some s, some t =>
    if source = target then (.error (.invalidEdge s.name t.name .selfLoop), g)
    else if g.edges.any fun e => e.source = source && e.target = target then
      (.error (.invalidEdge s.name t.name .alreadyThere), g)
    else if g.reaches target source then (.error (.cycle s.name t.name), g)
    else g.insertEdge s t

def connectNamed (g : TaskGraph) (source target : String) : Edited String :=
  match g.idOf? source, g.idOf? target with
  | none, _ => (.error (.unknownNode source), g)
  | _, none => (.error (.unknownNode target), g)
  | some s, some t => g.connect s t

/-- Removes an edge and tells both ends. -/
def disconnect (g : TaskGraph) (id : String) : Edited Edge :=
  match g.edges.find? fun e => e.id = id with
  | none => (.error (.unknownEdge id), g)
  | some edge =>
    let (answer, g) := sendAll
      [(edge.source, .removeOutgoing edge.targetName), (edge.target, .removeIncoming edge.sourceName)]
      { g with edges := g.edges.eraseP fun e => e.id = id }
    (answer.map fun _ => edge, g)

/-- The fields of a task that a rename changes, with their new text. -/
def retargeted (old new : String) (node : Node) : List (String × String) :=
  node.fields.entries.filterMap fun (key, raw) =>
    let text := Field.renameReferences old new raw
    if text = raw then none else some (key, text)

/-- A task with its tokens following a rename. -/
def retargetTokens (old new : String) (node : Node) : Node :=
  (node.send (.setFields (retargeted old new node))).1

/-- Gives a task a new name, in the index, the edges and the neighbours' lists,
and where tokens are to follow it, in the fields of every task. -/
def rename (g : TaskGraph) (id new : String) (policy : RenamePolicy) : Edited Unit :=
  match g.node? id with
  | none => (.error (.unknownNode id), g)
  | some node =>
    if node.name = new then (.ok (), g)
    else match g.nameError? new (some id) with
      | some error => (.error error, g)
      | none =>
        let old := node.name
        let g := g.notify id (.setName new)
        let follow := fun (n : Node) =>
          if n.id = id then n else (n.send (.renameReference old new)).1
        let nodes := g.nodes.map follow
        let nodes := match policy with
          | .keepTokens => nodes
          | .retargetTokens => nodes.map (retargetTokens old new)
        (.ok (), { g with
          nodes
          edges := g.edges.map fun e => e.renamed id new
          index := (g.index.erase old).insert new id })

/-- Tells the other end of each edge of a task that is gone; stops at an end
that is gone as well. -/
def dropEdges (id : String) : List Edge → TaskGraph → Edited (List String)
  | [], g => (.ok [], g)
  | edge :: rest, g =>
    let (other, event) : String × NodeEvent :=
      if edge.source = id then (edge.target, .removeIncoming edge.sourceName)
      else (edge.source, .removeOutgoing edge.targetName)
    match g.send other event with
    | (.error error, g) => (.error error, g)
    | (.ok _, g) =>
      match dropEdges id rest g with
      | (.error error, g) => (.error error, g)
      | (.ok told, g) => (.ok (other :: told), g)

/-- A list without the elements that repeat the one before them. -/
def withoutRepeats : List String → List String
  | [] => []
  | a :: rest =>
    match withoutRepeats rest with
    | [] => [a]
    | b :: more => if a = b then b :: more else a :: b :: more

/-- Removes a task with its edges; answers with the ids of the tasks that were
connected to it. -/
def delete (g : TaskGraph) (id : String) : Edited (List String) :=
  match g.node? id with
  | none => (.error (.unknownNode id), g)
  | some node =>
    let touching := g.edges.filter fun e => e.touches id
    let g := { g with
      nodes := g.nodes.eraseP fun n => n.id = id
      index := g.index.erase node.name
      edges := g.edges.filter fun e => !e.touches id }
    match dropEdges id touching g with
    | (.error error, g) => (.error error, g)
    | (.ok told, g) => (.ok (withoutRepeats told), g)

def change (g : TaskGraph) (id : String) (f : Node → Node) : Edited Unit :=
  if g.hasNode id then (.ok (), g.updateNode id f) else (.error (.unknownNode id), g)

def replaceKind (g : TaskGraph) (id : String) (kind : TaskKind) : Edited Unit :=
  g.change id fun n => n.replaceKind kind

def setFields (g : TaskGraph) (id : String) (values : List (String × String)) : Edited Unit :=
  g.change id fun n => (n.send (.setFields values)).1

def setMock (g : TaskGraph) (id : String) (mock : Mock) : Edited Unit :=
  g.change id fun n => (n.send (.setMock mock)).1

def setPosition (g : TaskGraph) (id : String) (position : Position) : Edited Unit :=
  g.change id fun n => { n with position }

/-- Every task idle, without results. -/
def resetAll (g : TaskGraph) : TaskGraph :=
  { g with nodes := g.nodes.map fun n => (n.send .reset).1 }

/-- The largest number behind a mark, among ids of that form. -/
def mostSuffix (mark : String) (ids : List String) : Nat :=
  (ids.filterMap fun id =>
    (Text.afterMark? mark.toList id.toList).bind fun rest =>
      Numeral.natural? Numeral.most64 (String.ofList rest)).foldl max 0

/-- A graph from stored parts.  The counters are raised so that no id present is
given again. -/
def ofParts (nodes : List Node) (edges : List Edge) (nodesAdded edgesAdded : Nat) :
    Except JobError TaskGraph :=
  let rec index : List Node → Dict String → Except JobError (Dict String)
    | [], found => .ok found
    | node :: rest, found =>
      if found.contains node.name then .error (.duplicateIdentifier node.name)
      else index rest (found.insert node.name node.id)
  match index nodes Dict.empty with
  | .error error => .error error
  | .ok index =>
    let ids := nodes.map Node.id
    match edges.find? fun e => !(ids.contains e.source && ids.contains e.target) with
    | some edge => .error (.unknownEdge edge.id)
    | none =>
      .ok {
        nodes, edges, index
        nodesAdded := max nodesAdded (mostSuffix "node_" ids)
        edgesAdded := max edgesAdded (mostSuffix "edge_" (edges.map Edge.id)) }

end TaskGraph
end JobPipeline
