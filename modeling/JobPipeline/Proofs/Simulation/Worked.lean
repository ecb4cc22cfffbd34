import JobPipeline.Proofs.Simulation.Moves

/-
Graphs that have been worked on.

Between the edits of a graph its tasks may have been run, by a simulation or by events sent
by hand.  They then have states, requests and results, and the graph is sound all the same.
Only the events that edits send to keep names and lists in step are left to the edits.
-/
namespace JobPipeline
namespace TaskGraph

/-- A graph that edits, simulations and their events make of the empty one. -/
inductive Worked : TaskGraph → Prop
  | empty : Worked TaskGraph.empty
  | edit {g : TaskGraph} (h : Worked g) (edit : Edit) : Worked (g.after edit)
  /-- An event that leaves names and lists alone. -/
  | send {g : TaskGraph} (h : Worked g) (id : String) {event : NodeEvent}
    (hlinks : ∀ n : Node, (n.send event).1.links = n.links) : Worked (g.send id event).2
  | move {σ : Type} {services : Services σ} {s : Simulation σ} (h : Worked s.job.graph) (m : Move) :
    Worked (s.move services m).2.job.graph

theorem Worked.afterAll {g : TaskGraph} (h : g.Worked) (edits : List Edit) : (g.afterAll edits).Worked := by
  induction edits generalizing g with
  | nil => exact h
  | cons edit edits ih => exact ih (h.edit edit)

theorem Sound.send {g : TaskGraph} (h : g.Sound) (id : String) {event : NodeEvent}
    (hlinks : ∀ n : Node, (n.send event).1.links = n.links) : (g.send id event).2.Sound := by
  have hsent : (g.send id event).2 = { g with nodes := g.nodes.map (Node.receives id event) } :=
    notify_eq h.wellFormed.nodeIds id event
  rw [hsent]
  refine h.congr ?_ rfl rfl rfl rfl
  rw [List.map_map]
  refine List.map_congr_left fun n _ => ?_
  show (n.receives id event).links = n.links
  rw [Node.receives]
  split
  · exact hlinks n
  · rfl

theorem Worked.sound {g : TaskGraph} (h : g.Worked) : g.Sound := by
  induction h with
  | empty => exact sound_empty
  | edit _ edit ih => exact ih.after edit
  | send _ id hlinks ih => exact ih.send id hlinks
  | @move σ services s _ m ih => exact ih.of_form (Simulation.form_move services s m)

end TaskGraph
end JobPipeline
