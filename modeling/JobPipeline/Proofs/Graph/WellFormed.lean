import JobPipeline.Graph.Edit
import JobPipeline.Proofs.Dict
import JobPipeline.Proofs.Graph.Search
import Mathlib.Data.List.Nodup

/-
What is true of a task graph between two edits.

A graph says the same thing in several places: an edge by ids and by names, a
name in its task and in the index, a neighbour in the edges and in the lists of
both its ends.  `WellFormed` is the agreement of these places, together with what
makes the graph a pipeline: names that can be written, no two edges between the
same tasks, and no cycle.

Most edits do not touch any of this.  `WellFormed.congr` is for them: only the
`links` of the tasks count, so an edit of fields, mocks, kinds or places has
nothing to show.
-/
namespace JobPipeline

open Relation (ReflTransGen)

/-- The names on the edges into a task, in the order of the edges. -/
def sourceNames (edges : List Edge) (id : String) : List String :=
  (edges.filter fun e => e.target = id).map Edge.sourceName

/-- The names on the edges out of a task, in the order of the edges. -/
def targetNames (edges : List Edge) (id : String) : List String :=
  (edges.filter fun e => e.source = id).map Edge.targetName

namespace TaskGraph

structure WellFormed (g : TaskGraph) : Prop where
  nodeIds : (g.nodes.map Node.id).Nodup
  edgeIds : (g.edges.map Edge.id).Nodup
  names : (g.nodes.map Node.name).Nodup
  validNames : ∀ n ∈ g.nodes, Identifier.isValid n.name = true
  /-- The index is exactly the map from the names to the ids. -/
  indexed : ∀ name id, g.idOf? name = some id ↔ ∃ n ∈ g.nodes, n.name = name ∧ n.id = id
  /-- An edge begins at a task, under the name that the task has. -/
  sources : ∀ e ∈ g.edges, ∃ n ∈ g.nodes, n.id = e.source ∧ n.name = e.sourceName
  targets : ∀ e ∈ g.edges, ∃ n ∈ g.nodes, n.id = e.target ∧ n.name = e.targetName
  noLoop : ∀ e ∈ g.edges, e.source ≠ e.target
  noRepeat : (g.edges.map fun e => (e.source, e.target)).Nodup
  acyclic : Acyclic g.edges
  incoming : ∀ n ∈ g.nodes, n.incoming = sourceNames g.edges n.id
  outgoing : ∀ n ∈ g.nodes, n.outgoing = targetNames g.edges n.id

/-- Every id was given out under a number that the counters have passed. -/
structure Numbered (g : TaskGraph) : Prop where
  nodes : ∀ n ∈ g.nodes, ∃ k, k ≤ g.nodesAdded ∧ n.id = "node_" ++ toString k
  edges : ∀ e ∈ g.edges, ∃ k, k ≤ g.edgesAdded ∧ e.id = "edge_" ++ toString k

end TaskGraph

/-- What the rest of a graph knows of a task. -/
structure Node.Links where
  id : String
  name : String
  incoming : List String
  outgoing : List String

def Node.links (n : Node) : Node.Links := ⟨n.id, n.name, n.incoming, n.outgoing⟩

/-! ## Tasks found by their ids -/

/-- A counter that is written out can be read off again. -/
theorem toString_inj_of_append {mark : String} {m n : Nat}
    (h : mark ++ toString m = mark ++ toString n) : m = n := by
  have hchars := congrArg String.toList h
  rw [String.toList_append, String.toList_append] at hchars
  have hdigits := congrArg (fun ds => Nat.ofDigitChars 10 ds 0) (List.append_cancel_left hchars)
  simpa [Nat.toString_eq_ofList_toDigits] using hdigits

namespace TaskGraph

theorem mem_of_node? {g : TaskGraph} {id : String} {n : Node} (h : g.node? id = some n) :
    n ∈ g.nodes := List.mem_of_find?_eq_some h

theorem id_of_node? {g : TaskGraph} {id : String} {n : Node} (h : g.node? id = some n) :
    n.id = id := by simpa using List.find?_some h

theorem ne_of_node?_eq_none {g : TaskGraph} {id : String} (h : g.node? id = none) :
    ∀ n ∈ g.nodes, n.id ≠ id := by simpa [node?] using h

/-- Two tasks with one id are one task. -/
theorem eq_of_id_eq {nodes : List Node} (h : (nodes.map Node.id).Nodup) {m n : Node}
    (hm : m ∈ nodes) (hn : n ∈ nodes) (hid : m.id = n.id) : m = n :=
  List.inj_on_of_nodup_map h hm hn hid

/-- Two tasks with one name are one task. -/
theorem eq_of_name_eq {nodes : List Node} (h : (nodes.map Node.name).Nodup) {m n : Node}
    (hm : m ∈ nodes) (hn : n ∈ nodes) (hname : m.name = n.name) : m = n :=
  List.inj_on_of_nodup_map h hm hn hname

theorem node?_eq_some {g : TaskGraph} (h : (g.nodes.map Node.id).Nodup) {n : Node}
    (hn : n ∈ g.nodes) : g.node? n.id = some n := by
  cases hfound : g.node? n.id with
  | none => exact absurd rfl (ne_of_node?_eq_none hfound n hn)
  | some m => rw [eq_of_id_eq h (mem_of_node? hfound) hn (id_of_node? hfound)]

theorem WellFormed.isValid_of_hasName {g : TaskGraph} (h : g.WellFormed) {name : String}
    (hname : g.hasName name = true) : Identifier.isValid name = true := by
  obtain ⟨id, hid⟩ := Option.isSome_iff_exists.1 hname
  obtain ⟨n, hn, rfl, _⟩ := (h.indexed name id).1 hid
  exact h.validNames n hn

theorem ids_map {f : Node → Node} (hf : ∀ n, (f n).id = n.id) (nodes : List Node) :
    (nodes.map f).map Node.id = nodes.map Node.id := by
  rw [List.map_map]
  exact List.map_congr_left fun n _ => hf n

theorem ids_updateFirst (found : Node → Bool) {f : Node → Node} (hf : ∀ n, (f n).id = n.id)
    (nodes : List Node) : (updateFirst found f nodes).map Node.id = nodes.map Node.id := by
  induction nodes with
  | nil => rfl
  | cons n nodes ih =>
    rw [updateFirst]
    split
    · rw [List.map_cons, List.map_cons, hf]
    · rw [List.map_cons, List.map_cons, ih]

/-- With distinct ids the first task found is the only one, so the others may be
asked as well. -/
theorem updateFirst_eq_map {nodes : List Node} (h : (nodes.map Node.id).Nodup) (id : String)
    (f : Node → Node) :
    updateFirst (fun n => n.id = id) f nodes = nodes.map fun n => if n.id = id then f n else n := by
  induction nodes with
  | nil => rfl
  | cons n nodes ih =>
    rw [List.map_cons, List.nodup_cons] at h
    by_cases hn : n.id = id
    · have hrest : ∀ m ∈ nodes, m.id ≠ id := fun m hm e =>
        h.1 (List.mem_map.2 ⟨m, hm, e.trans hn.symm⟩)
      have hsame : nodes.map (fun m => if m.id = id then f m else m) = nodes := by
        rw [List.map_congr_left fun m hm => if_neg (hrest m hm)]
        exact List.map_id' nodes
      rw [updateFirst, if_pos (by simpa using hn), List.map_cons, if_pos hn, hsame]
    · rw [updateFirst, if_neg (by simpa using hn), List.map_cons, if_neg hn, ih h.2]

end TaskGraph

/-! ## Events -/

namespace Node

@[simp] theorem settleWith_links (n : Node) (response : Response) :
    (n.settleWith response).1.links = n.links := by
  cases h : response.error <;> simp [settleWith, links, h]

/-- The course of evaluation leaves the links alone. -/
@[simp] theorem advance_links (n : Node) (event : NodeEvent) :
    (n.advance event).1.links = n.links := by
  rw [advance.eq_def]
  split
  · rfl
  · split <;> rfl
  · rfl
  · exact settleWith_links ..
  · exact settleWith_links ..
  · exact settleWith_links ..
  · rfl

@[simp] theorem send_id (n : Node) (event : NodeEvent) : (n.send event).1.id = n.id := by
  have hadvance : ∀ event, (n.advance event).1.id = n.id := fun event =>
    congrArg Links.id (advance_links n event)
  cases event <;> simp only [send, hadvance]
  case addIncoming name => split <;> rfl
  case removeIncoming name => split <;> rfl
  case addOutgoing name => split <;> rfl

/-- A task with a given id takes an event. -/
def receives (id : String) (event : NodeEvent) (n : Node) : Node :=
  if n.id = id then (n.send event).1 else n

@[simp] theorem receives_id (id : String) (event : NodeEvent) (n : Node) :
    (n.receives id event).id = n.id := by
  rw [receives]
  split
  · rw [send_id]
  · rfl

end Node

namespace TaskGraph

theorem notify_eq {g : TaskGraph} (h : (g.nodes.map Node.id).Nodup) (id : String)
    (event : NodeEvent) :
    g.notify id event = { g with nodes := g.nodes.map (Node.receives id event) } := by
  rw [notify, send]
  cases hnode : g.node? id with
  | none =>
    have hsame : ∀ n ∈ g.nodes, n.receives id event = n := fun n hn =>
      if_neg (ne_of_node?_eq_none hnode n hn)
    rw [List.map_congr_left hsame, List.map_id']
  | some node =>
    show g.updateNode id _ = _
    rw [updateNode, updateFirst_eq_map h]
    rfl

/-- A task that is there takes the event. -/
theorem send_of_mem {g : TaskGraph} (h : (g.nodes.map Node.id).Nodup) {id : String}
    (hid : id ∈ g.nodes.map Node.id) (event : NodeEvent) :
    ∃ effect, g.send id event =
      (.ok effect, { g with nodes := g.nodes.map (Node.receives id event) }) := by
  obtain ⟨n, hn, rfl⟩ := List.mem_map.1 hid
  have hsent : (g.send n.id event).2 = { g with nodes := g.nodes.map (Node.receives n.id event) } :=
    notify_eq h n.id event
  refine ⟨(n.send event).2, ?_⟩
  rw [← hsent, send, node?_eq_some h hn]

/-! ## Graphs that differ in nothing but what their tasks hold -/

/-- An edit that keeps the links of every task keeps well-formedness. -/
theorem WellFormed.congr {g g' : TaskGraph} (h : g.WellFormed)
    (hnodes : g'.nodes.map Node.links = g.nodes.map Node.links) (hedges : g'.edges = g.edges)
    (hindex : g'.index = g.index) : g'.WellFormed := by
  have hids : g'.nodes.map Node.id = g.nodes.map Node.id := by
    have := congrArg (List.map Node.Links.id) hnodes
    rwa [List.map_map, List.map_map] at this
  have hnames : g'.nodes.map Node.name = g.nodes.map Node.name := by
    have := congrArg (List.map Node.Links.name) hnodes
    rwa [List.map_map, List.map_map] at this
  -- Every task of one graph has a task with the same links in the other.
  have hback : ∀ n ∈ g'.nodes, ∃ m ∈ g.nodes, m.links = n.links := by
    intro n hn
    have : n.links ∈ g.nodes.map Node.links := hnodes ▸ List.mem_map_of_mem hn
    exact List.mem_map.1 this
  have hthere : ∀ n ∈ g.nodes, ∃ m ∈ g'.nodes, m.links = n.links := by
    intro n hn
    have : n.links ∈ g'.nodes.map Node.links := hnodes ▸ List.mem_map_of_mem hn
    exact List.mem_map.1 this
  exact {
    nodeIds := hids ▸ h.nodeIds
    edgeIds := hedges ▸ h.edgeIds
    names := hnames ▸ h.names
    validNames := fun n hn => by
      obtain ⟨m, hm, hlinks⟩ := hback n hn
      have hname : m.name = n.name := congrArg Node.Links.name hlinks
      rw [← hname]
      exact h.validNames m hm
    indexed := fun name id => by
      rw [idOf?, hindex, ← idOf?, h.indexed]
      constructor
      · rintro ⟨n, hn, rfl, rfl⟩
        obtain ⟨m, hm, hlinks⟩ := hthere n hn
        exact ⟨m, hm, congrArg Node.Links.name hlinks, congrArg Node.Links.id hlinks⟩
      · rintro ⟨n, hn, rfl, rfl⟩
        obtain ⟨m, hm, hlinks⟩ := hback n hn
        exact ⟨m, hm, congrArg Node.Links.name hlinks, congrArg Node.Links.id hlinks⟩
    sources := fun e he => by
      obtain ⟨n, hn, hid, hname⟩ := h.sources e (hedges ▸ he)
      obtain ⟨m, hm, hlinks⟩ := hthere n hn
      exact ⟨m, hm, (congrArg Node.Links.id hlinks).trans hid, (congrArg Node.Links.name hlinks).trans hname⟩
    targets := fun e he => by
      obtain ⟨n, hn, hid, hname⟩ := h.targets e (hedges ▸ he)
      obtain ⟨m, hm, hlinks⟩ := hthere n hn
      exact ⟨m, hm, (congrArg Node.Links.id hlinks).trans hid, (congrArg Node.Links.name hlinks).trans hname⟩
    noLoop := hedges ▸ h.noLoop
    noRepeat := hedges ▸ h.noRepeat
    acyclic := hedges ▸ h.acyclic
    incoming := fun n hn => by
      obtain ⟨m, hm, hlinks⟩ := hback n hn
      have hid : m.id = n.id := congrArg Node.Links.id hlinks
      have hlist : m.incoming = n.incoming := congrArg Node.Links.incoming hlinks
      rw [hedges, ← hid, ← hlist]
      exact h.incoming m hm
    outgoing := fun n hn => by
      obtain ⟨m, hm, hlinks⟩ := hback n hn
      have hid : m.id = n.id := congrArg Node.Links.id hlinks
      have hlist : m.outgoing = n.outgoing := congrArg Node.Links.outgoing hlinks
      rw [hedges, ← hid, ← hlist]
      exact h.outgoing m hm }

theorem Numbered.congr {g g' : TaskGraph} (h : g.Numbered)
    (hnodes : g'.nodes.map Node.id = g.nodes.map Node.id)
    (hedges : g'.edges.map Edge.id = g.edges.map Edge.id)
    (hnodesAdded : g.nodesAdded ≤ g'.nodesAdded) (hedgesAdded : g.edgesAdded ≤ g'.edgesAdded) :
    g'.Numbered := by
  constructor
  · intro n hn
    have hmem : n.id ∈ g.nodes.map Node.id := hnodes ▸ List.mem_map_of_mem hn
    obtain ⟨m, hm, hid⟩ := List.mem_map.1 hmem
    obtain ⟨k, hk, hmid⟩ := h.nodes m hm
    exact ⟨k, by omega, hid.symm.trans hmid⟩
  · intro e he
    have hmem : e.id ∈ g.edges.map Edge.id := hedges ▸ List.mem_map_of_mem he
    obtain ⟨m, hm, hid⟩ := List.mem_map.1 hmem
    obtain ⟨k, hk, hmid⟩ := h.edges m hm
    exact ⟨k, by omega, hid.symm.trans hmid⟩

theorem wellFormed_empty : empty.WellFormed := by
  constructor <;> simp [empty, idOf?, Acyclic]
  intro a ha
  obtain ⟨b, ⟨e, he, _⟩, _⟩ := Relation.TransGen.head'_iff.1 ha
  exact List.not_mem_nil he

theorem numbered_empty : empty.Numbered := by
  constructor <;> simp [empty]

end TaskGraph
end JobPipeline
