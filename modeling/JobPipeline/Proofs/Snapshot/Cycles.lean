import JobPipeline.Proofs.Graph.Closing
import JobPipeline.Proofs.Graph.Counting
import JobPipeline.Proofs.Snapshot.Restoring

/-
The complaint about a cycle is there exactly if there is one.

A snapshot that is written by hand can bring loops, repeated edges and cycles along, and all
that is asked of its edges is that each has a task at both ends.  That is enough for the
counters.  Edits can bring no cycle about, so after them there is nothing to complain of.
-/
namespace JobPipeline

open Relation (TransGen)

namespace TaskGraph

variable {g : TaskGraph}

theorem Mirrored.tied (h : g.Mirrored) : g.Tied := by
  intro e he
  obtain ⟨s, hs, hsid, -⟩ := h.sources e he
  obtain ⟨t, ht, htid, -⟩ := h.targets e he
  exact ⟨hsid ▸ List.mem_map_of_mem hs, htid ▸ List.mem_map_of_mem ht⟩

theorem Anchored.tied (h : g.Anchored) : g.Tied := fun e he => (h.ends e he).2

/-- Of a graph that was restored or handled: no counter is taken below zero, and a cycle is
complained of once if there is one and never if there is none, in whatever order the tasks
are come across. -/
theorem count_cycleDetected_iff
    (h : (∃ (s : Snapshot) (job : Job), s.restore = .ok job ∧ job.graph = g) ∨ g.Handled)
    {order : List String} (horder : order.Perm g.inDegrees.keys) :
    (∃ n, g.visited? order = some n) ∧
      ((g.errorsIn order).count .cycleDetected = 1 ↔ ∃ a, TransGen (Feeds g.edges) a a) ∧
      ((g.errorsIn order).count .cycleDetected = 0 ↔ ¬∃ a, TransGen (Feeds g.edges) a a) ∧
      (g.Handled → (g.errorsIn order).count .cycleDetected = 0) := by
  have htied : g.Tied := by
    rcases h with ⟨s, job, hrestore, rfl⟩ | h
    · exact (Snapshot.restored hrestore).mirrored.tied
    · exact h.anchored.tied
  obtain ⟨n, hvisited, -⟩ := htied.exists_visited? horder
  have hcycle := htied.hasCycle_iff horder
  have hone : (g.errorsIn order).count .cycleDetected = 1 ↔ ∃ a, TransGen (Feeds g.edges) a a := by
    rw [count_cycleDetected, ← hcycle]
    split <;> simp_all
  have hzero : (g.errorsIn order).count .cycleDetected = 0 ↔ ¬∃ a, TransGen (Feeds g.edges) a a := by
    rw [count_cycleDetected, ← hcycle]
    split <;> simp_all
  refine ⟨⟨n, hvisited⟩, hone, hzero, fun hhandled => hzero.2 ?_⟩
  rintro ⟨a, ha⟩
  exact hhandled.acyclic a ha

/-- Two edges lead from the first task to the second, which feeds itself and the third. -/
def knotSnapshot : Snapshot :=
  { format := Snapshot.currentFormat
    config := JobConfig.ofType .webhook
    nodes := [⟨"node_1", "a", .any, Dict.empty, Mock.off, Position.origin⟩,
      ⟨"node_2", "b", .any, Dict.empty, Mock.off, Position.origin⟩,
      ⟨"node_3", "c", .any, Dict.empty, Mock.off, Position.origin⟩]
    edges := [⟨"edge_1", "node_1", "node_2", "a", "b"⟩, ⟨"edge_1", "node_1", "node_2", "a", "b"⟩,
      ⟨"edge_2", "node_2", "node_2", "b", "b"⟩, ⟨"edge_3", "node_2", "node_3", "b", "c"⟩]
    counters := ⟨0, 0⟩ }

theorem count_cycleDetected_iff_knotSnapshot :
    ∃ job, knotSnapshot.restore = .ok job ∧ ["node_3", "node_1", "node_2"].Perm job.graph.inDegrees.keys ∧
      (∃ n, job.graph.visited? ["node_3", "node_1", "node_2"] = some n) ∧
      (job.graph.errorsIn ["node_3", "node_1", "node_2"]).count .cycleDetected = 1 := by
  obtain ⟨job, hjob⟩ : ∃ job, knotSnapshot.restore = .ok job :=
    Snapshot.exists_restore (by decide) (by decide)
  have horder : ["node_3", "node_1", "node_2"].Perm job.graph.inDegrees.keys := by
    have hkeys : (match knotSnapshot.restore with
        | .ok job => job.graph.inDegrees.keys
        | .error _ => []) = ["node_1", "node_2", "node_3"] := by decide +kernel
    rw [hjob] at hkeys
    rw [show job.graph.inDegrees.keys = ["node_1", "node_2", "node_3"] from hkeys]
    decide
  have hfeeds : Feeds job.graph.edges "node_2" "node_2" := by
    rw [(Snapshot.restored hjob).edges, Snapshot.drawn,
      feeds_map fun e => ⟨Snapshot.titled_source _ e, Snapshot.titled_target _ e⟩]
    exact ⟨_, List.mem_cons_of_mem _ (List.mem_cons_of_mem _ List.mem_cons_self), rfl, rfl⟩
  obtain ⟨hvisited, hone, -⟩ := count_cycleDetected_iff (.inl ⟨_, job, hjob, rfl⟩) horder
  exact ⟨job, hjob, horder, hvisited, hone.2 ⟨"node_2", .single hfeeds⟩⟩

end TaskGraph
end JobPipeline
