import JobPipeline.Snapshot
import JobPipeline.Proofs.Graph.Names
import JobPipeline.Proofs.Matching

/-
Drawing the edges of a snapshot.

A snapshot keeps no lists of neighbours.  Its tasks come back without any and are told of
the edges one after another, so a task ends with the names on its edges in their order,
each at the first edge that has it.
-/
namespace JobPipeline

/-! ## One edge -/

namespace Node

/-- A task that lists the edges it is at. -/
def linked (edges : List Edge) (n : Node) : Node :=
  { n with
    incoming := (sourceNames edges n.id).eraseDups
    outgoing := (targetNames edges n.id).eraseDups }

end Node

namespace Snapshot

/-- A name at the end of a list, unless the list has it. -/
def listed (names : List String) (name : String) : List String :=
  if name ∈ names then names else names ++ [name]

theorem send_addOutgoing (n : Node) (name : String) :
    (n.send (.addOutgoing name)).1 = { n with outgoing := listed n.outgoing name } := by
  rw [Node.send, listed]
  split <;> rfl

theorem send_addIncoming {n : Node} (h : n.runResult = none) (name : String) :
    (n.send (.addIncoming name)).1 = { n with incoming := listed n.incoming name } := by
  rw [Node.send, listed]
  split
  · rfl
  · exact congrArg (fun runResult => { n with incoming := n.incoming ++ [name], runResult }) h.symm

theorem attach_eq (e : Edge) {n : Node} (h : n.runResult = none) :
    attach e n = { n with
      incoming := if e.target = n.id then listed n.incoming e.sourceName else n.incoming
      outgoing := if e.source = n.id then listed n.outgoing e.targetName else n.outgoing } := by
  rw [attach, send_addOutgoing]
  by_cases hs : n.id = e.source
  · rw [if_pos hs, if_pos hs.symm]
    by_cases ht : n.id = e.target
    · rw [if_pos ht, if_pos ht.symm]
      exact send_addIncoming (n := { n with outgoing := listed n.outgoing e.targetName }) h e.sourceName
    · rw [if_neg ht, if_neg (Ne.symm ht)]
  · rw [if_neg hs, if_neg (Ne.symm hs)]
    by_cases ht : n.id = e.target
    · rw [if_pos ht, if_pos ht.symm]
      exact send_addIncoming h e.sourceName
    · rw [if_neg ht, if_neg (Ne.symm ht)]

@[simp] theorem attach_id (e : Edge) (n : Node) : (attach e n).id = n.id := by
  simp only [attach]
  split <;> split <;> simp only [Node.send_id]

@[simp] theorem attach_name (e : Edge) (n : Node) : (attach e n).name = n.name := by
  have hin (n : Node) : (n.send (.addIncoming e.sourceName)).1.name = n.name := by
    rw [Node.send]
    split <;> rfl
  simp only [attach, send_addOutgoing]
  split <;> split <;> simp only [hin]

/-- A task that lists nobody is told of all edges. -/
theorem foldl_attach {n : Node} (hin : n.incoming = []) (hout : n.outgoing = [])
    (hrun : n.runResult = none) (edges : List Edge) :
    edges.foldl (fun n e => attach e n) n = n.linked edges := by
  induction edges using List.reverseRecOn with
  | nil =>
    obtain ⟨id, name, kind, fields, incoming, outgoing, position, mock, state, runResult, lastRequest⟩ := n
    obtain rfl : incoming = [] := hin
    obtain rfl : outgoing = [] := hout
    rfl
  | append_singleton edges e ih =>
    rw [List.foldl_append, ih, List.foldl_cons, List.foldl_nil, attach_eq e (n := n.linked edges) hrun]
    simp only [Node.linked, listed, sourceNames_append_singleton, targetNames_append_singleton,
      List.mem_eraseDups]
    congr 1
    · split
      · rw [eraseDups_append_singleton]
      · rfl
    · split
      · rw [eraseDups_append_singleton]
      · rfl

/-! ## All edges -/

/-- There is a task at each end of the edge. -/
def joins (nodes : List Node) (e : Edge) : Bool :=
  (nameOf? nodes e.source).isSome && (nameOf? nodes e.target).isSome

/-- An edge under the names that its tasks have. -/
def titled (nodes : List Node) (e : Edge) : Edge :=
  match nameOf? nodes e.source, nameOf? nodes e.target with
  | some sourceName, some targetName => { e with sourceName, targetName }
  | _, _ => e

theorem nameOf?_map {f : Node → Node} (hid : ∀ n, (f n).id = n.id) (hname : ∀ n, (f n).name = n.name)
    (nodes : List Node) : nameOf? (nodes.map f) = nameOf? nodes := by
  funext id
  simp [nameOf?, List.find?_map, Function.comp_def, hid, hname]

section Names

variable {nodes nodes' : List Node} (h : nameOf? nodes' = nameOf? nodes)
include h

theorem joins_congr : joins nodes' = joins nodes := by
  funext e
  rw [joins, joins, h]

theorem titled_congr : titled nodes' = titled nodes := by
  funext e
  rw [titled, titled, h]

end Names

theorem draw_eq (edges : List Edge) (nodes : List Node) :
    draw edges nodes =
      (nodes.map fun n =>
        ((edges.filter (joins nodes)).map (titled nodes)).foldl (fun n e => attach e n) n,
      edges.map (titled nodes)) := by
  induction edges generalizing nodes with
  | nil => simp [draw]
  | cons e edges ih =>
    cases hs : nameOf? nodes e.source with
    | none =>
      have hjoins : joins nodes e = false := by simp [joins, hs]
      have htitled : titled nodes e = e := by simp [titled, hs]
      rw [draw, hs, ih, List.filter_cons_of_neg (by simp [hjoins]), List.map_cons, htitled]
    | some sourceName =>
      cases ht : nameOf? nodes e.target with
      | none =>
        have hjoins : joins nodes e = false := by simp [joins, ht]
        have htitled : titled nodes e = e := by simp [titled, hs, ht]
        rw [draw, hs, ht, ih, List.filter_cons_of_neg (by simp [hjoins]), List.map_cons, htitled]
      | some targetName =>
        have hjoins : joins nodes e = true := by simp [joins, hs, ht]
        have htitled : titled nodes e = { e with sourceName, targetName } := by simp [titled, hs, ht]
        -- Telling the tasks of an edge changes no name, so the other edges find the same names.
        have hnames := nameOf?_map (attach_id (titled nodes e)) (attach_name (titled nodes e)) nodes
        have hjoinsAll := joins_congr hnames
        have htitledAll := titled_congr hnames
        rw [draw, hs, ht]
        show ((draw edges (nodes.map (attach { e with sourceName, targetName }))).1,
          { e with sourceName, targetName } ::
            (draw edges (nodes.map (attach { e with sourceName, targetName }))).2) = _
        rw [← htitled, ih, hjoinsAll, htitledAll, List.filter_cons_of_pos hjoins, List.map_map,
          List.map_cons, List.map_cons]
        rfl

end Snapshot
end JobPipeline
