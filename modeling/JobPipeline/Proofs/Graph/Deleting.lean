import JobPipeline.Proofs.Simulation.Worked

/-
Deleting a task takes it out of the graph and nothing else, and tells each neighbour once.

One message is sent for every edge of the task, and only repetitions that stand next to each
other are taken out of the answer.  That the answer has none at all rests on the edges: no
two lead the same way between two tasks, and none leads back where another came from.
-/
namespace JobPipeline
namespace TaskGraph

open Relation (TransGen)

variable {g : TaskGraph}

theorem withoutRepeats_of_nodup {l : List String} (h : l.Nodup) : withoutRepeats l = l := by
  induction l with
  | nil => rfl
  | cons a rest ih =>
    rw [List.nodup_cons] at h
    rw [withoutRepeats, ih h.2]
    cases rest with
    | nil => rfl
    | cons b more =>
      have hne : a ≠ b := fun heq => h.1 (heq ▸ List.mem_cons_self)
      simp only [if_neg hne]

/-- The ends of the edges of a task, other than the task itself. -/
def neighbours (g : TaskGraph) (id : String) : List String :=
  (g.edges.filter fun e => e.touches id).map (·.otherEnd id)

theorem WellFormed.mem_neighbours (h : g.WellFormed) {id other : String} :
    other ∈ g.neighbours id ↔ Feeds g.edges id other ∨ Feeds g.edges other id := by
  rw [neighbours, List.mem_map]
  constructor
  · rintro ⟨e, he, rfl⟩
    obtain ⟨he, htouches⟩ := List.mem_filter.1 he
    rw [Edge.touches, Bool.or_eq_true, decide_eq_true_eq, decide_eq_true_eq] at htouches
    rw [Edge.otherEnd]
    by_cases hs : e.source = id
    · rw [if_pos hs]
      exact .inl ⟨e, he, hs, rfl⟩
    · rw [if_neg hs]
      exact .inr ⟨e, he, rfl, htouches.resolve_left hs⟩
  · rintro (⟨e, he, hs, ht⟩ | ⟨e, he, hs, ht⟩)
    · exact ⟨e, List.mem_filter.2 ⟨he, by simp [Edge.touches, hs]⟩, by rw [Edge.otherEnd, if_pos hs, ht]⟩
    · have hne : e.source ≠ id := fun heq => h.noLoop e he (heq.trans ht.symm)
      exact ⟨e, List.mem_filter.2 ⟨he, by simp [Edge.touches, ht]⟩, by rw [Edge.otherEnd, if_neg hne, hs]⟩

/-- No two edges of a task have the same other end: they would be one edge, or a cycle. -/
theorem WellFormed.nodup_neighbours (h : g.WellFormed) (id : String) : (g.neighbours id).Nodup := by
  have hcycle : ∀ a, Feeds g.edges id a → ¬Feeds g.edges a id := fun a hthere hback =>
    h.acyclic id (.tail (.single hthere) hback)
  refine List.Nodup.map_on (fun e he e' he' heq => ?_) (h.noRepeat.of_map.filter _)
  obtain ⟨he, htouches⟩ := List.mem_filter.1 he
  obtain ⟨he', htouches'⟩ := List.mem_filter.1 he'
  rw [Edge.touches, Bool.or_eq_true, decide_eq_true_eq, decide_eq_true_eq] at htouches htouches'
  rw [Edge.otherEnd, Edge.otherEnd] at heq
  by_cases hs : e.source = id <;> by_cases hs' : e'.source = id
  · rw [if_pos hs, if_pos hs'] at heq
    exact h.eq_of_ends he he' (hs.trans hs'.symm) heq
  · rw [if_pos hs, if_neg hs'] at heq
    have ht' := htouches'.resolve_left hs'
    exact absurd ⟨e', he', heq.symm, ht'⟩ (hcycle e.target ⟨e, he, hs, rfl⟩)
  · rw [if_neg hs, if_pos hs'] at heq
    have ht := htouches.resolve_left hs
    exact absurd ⟨e, he, heq, ht⟩ (hcycle e'.target ⟨e', he', hs', rfl⟩)
  · rw [if_neg hs, if_neg hs'] at heq
    exact h.eq_of_ends he he' heq ((htouches.resolve_left hs).trans (htouches'.resolve_left hs').symm)

/-- What deleting a task does, and whom it tells. -/
theorem Worked.exists_told (h : g.Worked) {id : String} {gone : Node} (hgone : g.node? id = some gone) :
    ∃ told : List String,
      g.delete id = (.ok told, { g with
        nodes := (g.nodes.filter fun n => n.id ≠ id).map fun n => { n with
          incoming := if leads g.edges id n.id then n.incoming.filter (· ≠ gone.name) else n.incoming
          outgoing := if leads g.edges n.id id then n.outgoing.filter (· ≠ gone.name) else n.outgoing
          runResult := if leads g.edges id n.id then none else n.runResult }
        edges := g.edges.filter fun e => !e.touches id
        index := g.index.erase gone.name }) ∧
      told.Nodup ∧ ∀ other, other ∈ told ↔ Feeds g.edges id other ∨ Feeds g.edges other id := by
  have hw := h.sound.wellFormed
  have hid := id_of_node? hgone
  subst hid
  refine ⟨g.neighbours gone.id, ?_, hw.nodup_neighbours gone.id, fun other => hw.mem_neighbours⟩
  rw [delete_eq hw (mem_of_node? hgone), ← neighbours, withoutRepeats_of_nodup (hw.nodup_neighbours gone.id)]
  rfl

/-- A row of three tasks, of which the last has been evaluated. -/
def settledRow : TaskGraph :=
  let row := empty.afterAll [.addNamed .http "fetch" .origin none,
    .addNamed .jsonParse "parse" .origin (some ⟨"node_1", .target⟩),
    .addNamed .sum "total" .origin (some ⟨"node_2", .target⟩)]
  (((row.send "node_3" .prepare).2.send "node_3" (.run [] Dict.empty)).2.send "node_3"
    (.settle (.ofValue (.bool true)))).2

theorem Worked.exists_told_settledRow :
    settledRow.Worked ∧ ((settledRow.node? "node_3").bind Node.runResult).isSome = true ∧
      ∃ told, (settledRow.delete "node_2").1 = .ok told ∧ told.Nodup ∧ "node_1" ∈ told ∧ "node_3" ∈ told ∧
        ((settledRow.delete "node_2").2.node? "node_3").map (fun n => (n.incoming, n.runResult)) = some ([], none) ∧
        ((settledRow.delete "node_2").2.node? "node_1").map Node.outgoing = some [] := by
  have hworked : settledRow.Worked := by
    unfold settledRow
    refine .send ?_ "node_3" fun n => n.advance_links _
    refine .send ?_ "node_3" fun n => n.advance_links _
    refine .send ?_ "node_3" fun n => n.advance_links _
    exact Worked.empty.afterAll _
  have hsettled : ((settledRow.node? "node_3").bind Node.runResult).isSome = true := by decide +kernel
  have hthere : (settledRow.node? "node_2").isSome = true := by decide +kernel
  have hedges : leads settledRow.edges "node_1" "node_2" && leads settledRow.edges "node_2" "node_3" := by
    decide +kernel
  rw [Bool.and_eq_true, leads_iff, leads_iff] at hedges
  obtain ⟨gone, hgone⟩ := Option.isSome_iff_exists.1 hthere
  obtain ⟨told, hdelete, hnodup, hmem⟩ := hworked.exists_told hgone
  refine ⟨hworked, hsettled, told, by rw [hdelete], hnodup, (hmem _).2 (.inr hedges.1), (hmem _).2 (.inl hedges.2),
    ?_, ?_⟩
  · decide +kernel
  · decide +kernel

end TaskGraph
end JobPipeline
