import JobPipeline.Proofs.Graph.History

/-
An edit that fails has changed nothing.

Most edits change the graph first and tell its tasks afterwards, so a task that was
missing by then would leave half an edit behind.  None ever is, since an edge has a
task at each of its ends and the two are not the same task.

Only the ids of the tasks and the ends of the edges count here, and no event touches
these.  So the graphs may have been sent any events between their edits, also such as
leave names and lists in disorder.
-/
namespace JobPipeline

namespace TaskGraph

/-- Every edge is held by two tasks, each of its own id. -/
structure Anchored (g : TaskGraph) : Prop where
  nodeIds : (g.nodes.map Node.id).Nodup
  numbered : ∀ n ∈ g.nodes, ∃ k, k ≤ g.nodesAdded ∧ n.id = "node_" ++ toString k
  ends : ∀ e ∈ g.edges,
    e.source ≠ e.target ∧ e.source ∈ g.nodes.map Node.id ∧ e.target ∈ g.nodes.map Node.id

/-- An edit was refused with the graph as it was, or it was done in full. -/
inductive Decided {α : Type} (g : TaskGraph) : Edited α → Prop
  | refused (error : JobError) : Decided g (.error error, g)
  | done (a : α) {g' : TaskGraph} (h : g'.Anchored) : Decided g (.ok a, g')

namespace Decided

variable {α β : Type} {g : TaskGraph} {edited : Edited α}

theorem unchanged (h : Decided g edited) {error : JobError} (herror : edited.1 = .error error) :
    edited.2 = g := by
  cases h with
  | refused => rfl
  | done => cases herror

theorem anchored (h : Decided g edited) (hg : g.Anchored) : edited.2.Anchored := by
  cases h with
  | refused => exact hg
  | done _ h => exact h

theorem map (h : Decided g edited) (f : α → β) : Decided g (edited.1.map f, edited.2) := by
  cases h with
  | refused error => exact .refused error
  | done a h => exact .done (f a) h

end Decided

theorem Sound.anchored {g : TaskGraph} (h : g.Sound) : g.Anchored :=
  ⟨h.wellFormed.nodeIds, h.numbered.nodes, h.wellFormed.ends⟩

namespace Anchored

variable {g g' : TaskGraph}

/-- With the same tasks only new edges have anything to show. -/
theorem congr (h : g.Anchored) (hids : g'.nodes.map Node.id = g.nodes.map Node.id)
    (hadded : g'.nodesAdded = g.nodesAdded)
    (hends : ∀ e ∈ g'.edges,
      e.source ≠ e.target ∧ e.source ∈ g.nodes.map Node.id ∧ e.target ∈ g.nodes.map Node.id) :
    g'.Anchored := by
  refine ⟨hids.symm ▸ h.nodeIds, fun n hn => ?_, hids.symm ▸ hends⟩
  have hmem : n.id ∈ g.nodes.map Node.id := hids ▸ List.mem_map_of_mem hn
  obtain ⟨m, hm, hid⟩ := List.mem_map.1 hmem
  rw [hadded, ← hid]
  exact h.numbered m hm

theorem send (h : g.Anchored) (id : String) (event : NodeEvent) : (g.send id event).2.Anchored := by
  have hsent : (g.send id event).2 = { g with nodes := g.nodes.map (Node.receives id event) } :=
    notify_eq h.nodeIds id event
  rw [hsent]
  exact h.congr (ids_map (Node.receives_id id event) g.nodes) rfl h.ends

/-! ## Adding -/

theorem insertEdge (h : g.Anchored) {s t : Node} (hs : s ∈ g.nodes) (ht : t ∈ g.nodes)
    (hne : s.id ≠ t.id) : Decided g' (g.insertEdge s t) := by
  rw [insertEdge_eq h.nodeIds hs ht]
  refine .done _ (h.congr (ids_map (fun n => n.joined_id s t) g.nodes) rfl fun e he => ?_)
  rcases List.mem_append.1 he with he | he
  · exact h.ends e he
  · rw [List.mem_singleton.1 he]
    exact ⟨hne, List.mem_map_of_mem hs, List.mem_map_of_mem ht⟩

section Adding

variable {kind : TaskKind} {name : String} {position : Position}

theorem grown (h : g.Anchored) : (g.grown kind name position).Anchored := by
  have hids : (g.grown kind name position).nodes.map Node.id =
      g.nodes.map Node.id ++ [(g.newNode kind name position).id] := List.map_append
  refine ⟨?_, ?_, fun e he => ?_⟩
  · rw [hids, List.nodup_append']
    refine ⟨h.nodeIds, List.nodup_singleton _, ?_⟩
    rw [List.disjoint_singleton]
    intro hold
    obtain ⟨n, hn, hid⟩ := List.mem_map.1 hold
    exact newNode_id_ne h.numbered hn hid
  · intro n hn
    rcases List.mem_append.1 hn with hn | hn
    · obtain ⟨k, hk, hid⟩ := h.numbered n hn
      exact ⟨k, Nat.le_succ_of_le hk, hid⟩
    · rw [List.mem_singleton.1 hn]
      exact ⟨g.nodesAdded + 1, Nat.le_refl _, rfl⟩
  · obtain ⟨hne, hs, ht⟩ := h.ends e he
    rw [hids]
    exact ⟨hne, List.mem_append_left _ hs, List.mem_append_left _ ht⟩

end Adding

theorem addNamed (h : g.Anchored) (kind : TaskKind) (name : String) (position : Position)
    (attachment : Option Attachment) : Decided g (g.addNamed kind name position attachment) := by
  rw [TaskGraph.addNamed]
  cases hname : g.nameError? name none with
  | some error => exact .refused error
  | none =>
    have hgrown : (g.grown kind name position).Anchored := h.grown
    have hnode : g.newNode kind name position ∈ (g.grown kind name position).nodes :=
      List.mem_append_right _ (List.mem_singleton.2 rfl)
    cases attachment with
    | none => exact .done _ hgrown
    | some a =>
      cases hneighbour : g.node? a.neighbour with
      | none => simpa only [hneighbour] using .refused _
      | some neighbour =>
        have hold : neighbour ∈ g.nodes := mem_of_node? hneighbour
        have hmem : neighbour ∈ (g.grown kind name position).nodes := List.mem_append_left _ hold
        have hne : neighbour.id ≠ (g.newNode kind name position).id :=
          newNode_id_ne h.numbered hold
        cases hrole : a.role with
        | source =>
          have hdecided : Decided g ((g.grown kind name position).insertEdge
              (g.newNode kind name position) neighbour) := hgrown.insertEdge hnode hmem hne.symm
          simp only [hneighbour, hrole]
          exact hdecided.map _
        | target =>
          have hdecided : Decided g ((g.grown kind name position).insertEdge
              neighbour (g.newNode kind name position)) := hgrown.insertEdge hmem hnode hne
          simp only [hneighbour, hrole]
          exact hdecided.map _

theorem connect (h : g.Anchored) (source target : String) : Decided g (g.connect source target) := by
  rcases connect_cases g source target with ⟨error, hrefused⟩ | ⟨s, t, hs, ht, hne, -, -, hput⟩
  · rw [hrefused]
    exact .refused error
  · rw [hput]
    refine h.insertEdge (mem_of_node? hs) (mem_of_node? ht) ?_
    rwa [id_of_node? hs, id_of_node? ht]

theorem connectNamed (h : g.Anchored) (source target : String) :
    Decided g (g.connectNamed source target) := by
  rw [TaskGraph.connectNamed]
  cases g.idOf? source with
  | none => exact .refused _
  | some s =>
    cases g.idOf? target with
    | none => exact .refused _
    | some t => exact h.connect s t

/-! ## Removing -/

theorem disconnect (h : g.Anchored) (id : String) : Decided g (g.disconnect id) := by
  rw [TaskGraph.disconnect]
  cases hfound : g.edges.find? fun e => e.id = id with
  | none => exact .refused _
  | some e =>
    obtain ⟨-, hs, ht⟩ := h.ends e (List.mem_of_find?_eq_some hfound)
    let messages := [(e.source, NodeEvent.removeOutgoing e.targetName), (e.target, .removeIncoming e.sourceName)]
    have hthere : ∀ m ∈ messages, m.1 ∈ g.nodes.map Node.id := by
      simp only [messages, List.forall_mem_cons]
      exact ⟨hs, ht, List.forall_mem_nil _⟩
    let rest : TaskGraph := { g with edges := g.edges.eraseP fun e => e.id = id }
    show Decided g ((sendAll messages rest).1.map fun _ => e, (sendAll messages rest).2)
    rw [sendAll_eq (g := rest) h.nodeIds hthere]
    refine .done e (h.congr (ids_map (fun n => ?_) g.nodes) rfl fun e' he' => ?_)
    · simp [messages]
    · exact h.ends e' (List.mem_of_mem_eraseP he')

theorem delete (h : g.Anchored) (id : String) : Decided g (g.delete id) := by
  cases hnode : g.node? id with
  | none =>
    rw [TaskGraph.delete, hnode]
    exact .refused _
  | some gone =>
    rw [delete_of_node? hnode h.nodeIds h.ends]
    have hids := ids_map (Node.leftBy_id id (g.edges.filter fun e => e.touches id))
      (g.nodes.filter fun n => n.id ≠ id)
    refine .done _ ⟨?_, fun n hn => ?_, fun e he => ?_⟩
    · exact hids.symm ▸ h.nodeIds.sublist (List.filter_sublist.map _)
    · obtain ⟨m, hm, rfl⟩ := List.mem_map.1 hn
      rw [Node.leftBy_id]
      exact h.numbered m (List.mem_filter.1 hm).1
    · obtain ⟨he, huntouched⟩ := List.mem_filter.1 he
      obtain ⟨hne, hs, ht⟩ := h.ends e he
      rw [Edge.touches, Bool.not_eq_true', Bool.or_eq_false_iff, decide_eq_false_iff_not,
        decide_eq_false_iff_not] at huntouched
      rw [hids]
      exact ⟨hne, mem_ids_of_ne hs huntouched.1, mem_ids_of_ne ht huntouched.2⟩

/-! ## Changing tasks -/

theorem rename (h : g.Anchored) (id new : String) (policy : RenamePolicy) :
    Decided g (g.rename id new policy) := by
  rw [TaskGraph.rename]
  cases hnode : g.node? id with
  | none => exact .refused _
  | some node =>
    dsimp only
    split
    · exact .done () h
    · cases hname : g.nameError? new (some id) with
      | some error => exact .refused error
      | none =>
        rw [notify_eq h.nodeIds]
        refine .done () (h.congr ?_ rfl fun e he => ?_)
        · have hfollow : ∀ n : Node,
              (if n.id = id then n else (n.send (.renameReference node.name new)).1).id = n.id := by
            intro n
            split <;> rfl
          have hids := (ids_map hfollow (g.nodes.map (Node.receives id (.setName new)))).trans
            (ids_map (Node.receives_id id (.setName new)) g.nodes)
          cases policy with
          | keepTokens => exact hids
          | retargetTokens =>
            exact (ids_map (f := TaskGraph.retargetTokens node.name new) (fun n => rfl) _).trans hids
        · obtain ⟨e', he', rfl⟩ := List.mem_map.1 he
          exact h.ends e' he'

theorem change (h : g.Anchored) (id : String) {f : Node → Node} (hf : ∀ n, (f n).id = n.id) :
    Decided g (g.change id f) := by
  rw [TaskGraph.change]
  split
  · have hids : (g.updateNode id f).nodes.map Node.id = g.nodes.map Node.id := by
      rw [updateNode, updateFirst_eq_map h.nodeIds]
      refine ids_map (fun n => ?_) g.nodes
      split
      · exact hf n
      · rfl
    exact .done () (h.congr hids rfl h.ends)
  · exact .refused _

end Anchored

/-! ## Every edit -/

/-- The answer of an edit, without what it brings. -/
def answer (g : TaskGraph) : Edit → Except JobError Unit
  | .add kind position attachment => (g.add kind position attachment).1.map fun _ => ()
  | .addNamed kind name position attachment =>
    (g.addNamed kind name position attachment).1.map fun _ => ()
  | .connect source target => (g.connect source target).1.map fun _ => ()
  | .connectNamed source target => (g.connectNamed source target).1.map fun _ => ()
  | .disconnect id => (g.disconnect id).1.map fun _ => ()
  | .rename id new policy => (g.rename id new policy).1
  | .delete id => (g.delete id).1.map fun _ => ()
  | .replaceKind id kind => (g.replaceKind id kind).1
  | .setFields id values => (g.setFields id values).1
  | .setMock id mock => (g.setMock id mock).1
  | .setPosition id position => (g.setPosition id position).1
  | .resetAll => .ok ()

theorem Anchored.decided {g : TaskGraph} (h : g.Anchored) (edit : Edit) :
    Decided g (g.answer edit, g.after edit) := by
  cases edit with
  | add kind position attachment => exact (h.addNamed kind g.nextName position attachment).map _
  | addNamed kind name position attachment => exact (h.addNamed kind name position attachment).map _
  | connect source target => exact (h.connect source target).map _
  | connectNamed source target => exact (h.connectNamed source target).map _
  | disconnect id => exact (h.disconnect id).map _
  | rename id new policy => exact h.rename id new policy
  | delete id => exact (h.delete id).map _
  | replaceKind id kind => exact h.change id fun n => rfl
  | setFields id values => exact h.change id fun n => rfl
  | setMock id mock => exact h.change id fun n => rfl
  | setPosition id position => exact h.change id fun n => rfl
  | resetAll =>
    have hids := ids_map (f := fun n => (n.send .reset).1) (fun n => rfl) g.nodes
    exact .done () (h.congr hids rfl h.ends)

/-- A loop would stop the deletion of its task halfway. -/
example :
    let g : TaskGraph := { empty with
      nodes := [Node.fresh "node_1" "a" .any .origin]
      edges := [⟨"edge_1", "node_1", "node_1", "a", "a"⟩] }
    g.answer (.delete "node_1") = .error (.unknownNode "node_1") ∧ (g.after (.delete "node_1")).nodes = [] :=
  ⟨rfl, rfl⟩

/-- A graph that edits, and events of any kind between them, make of the empty one. -/
inductive Handled : TaskGraph → Prop
  | empty : Handled TaskGraph.empty
  | edit {g : TaskGraph} (h : Handled g) (edit : Edit) : Handled (g.after edit)
  | send {g : TaskGraph} (h : Handled g) (id : String) (event : NodeEvent) : Handled (g.send id event).2

theorem Handled.anchored {g : TaskGraph} (h : g.Handled) : g.Anchored := by
  induction h with
  | empty => exact sound_empty.anchored
  | edit _ edit ih => exact (ih.decided edit).anchored ih
  | send _ id event ih => exact ih.send id event

theorem Handled.afterAll {g : TaskGraph} (h : g.Handled) (edits : List Edit) : (g.afterAll edits).Handled := by
  induction edits generalizing g with
  | nil => exact h
  | cons edit edits ih => exact ih (h.edit edit)

end TaskGraph
end JobPipeline
