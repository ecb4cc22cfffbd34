import Mathlib.Data.Prod.Basic
import JobPipeline.Proofs.Graph.Anchored
import JobPipeline.Proofs.Snapshot.Drawing

/-
What restoring a snapshot makes of it.

A snapshot can be written by hand, so nothing is known of one that is restored.  Two things
are asked of it: that its tasks have different names, and that each edge has a task at both
ends.  What follows from these is `Mirrored`: all that a graph says twice it says alike.
The rest of a well-formed graph is not asked for, and `wellFormed_restored_iff` says that
it is there only if the snapshot brings it along.
-/
namespace JobPipeline

namespace TaskGraph

/-! ## Putting parts together -/

theorem index_ok {nodes : List Node} {found d : Dict String} (h : ofParts.index nodes found = .ok d) :
    ((nodes.map Node.name).Nodup ∧ ∀ n ∈ nodes, found.find? n.name = none) ∧
      ∀ name id, d.find? name = some id ↔
        found.find? name = some id ∨ ∃ n ∈ nodes, n.name = name ∧ n.id = id := by
  induction nodes generalizing found with
  | nil =>
    cases h
    simp
  | cons n nodes ih =>
    rw [ofParts.index] at h
    split at h
    · cases h
    · next hnew =>
      have hfree : found.find? n.name = none := Option.not_isSome_iff_eq_none.1 hnew
      obtain ⟨⟨hnames, hfound⟩, hd⟩ := ih h
      have hother : ∀ m ∈ nodes, n.name ≠ m.name := by
        intro m hm heq
        have hnone := hfound m hm
        rw [← heq, Dict.find?_insert_self] at hnone
        cases hnone
      refine ⟨⟨?_, ?_⟩, fun name id => ?_⟩
      · rw [List.map_cons, List.nodup_cons]
        refine ⟨fun hmem => ?_, hnames⟩
        obtain ⟨m, hm, heq⟩ := List.mem_map.1 hmem
        exact hother m hm heq.symm
      · intro m hm
        rcases List.mem_cons.1 hm with rfl | hm
        · exact hfree
        · rw [← Dict.find?_insert_of_ne found (hother m hm) n.id]
          exact hfound m hm
      · rw [hd, Dict.find?_insert]
        by_cases hname : n.name = name
        · subst hname
          rw [if_pos rfl, hfree]
          simp [eq_comm]
        · rw [if_neg hname]
          simp [hname]

theorem exists_index {nodes : List Node} (hnames : (nodes.map Node.name).Nodup) {found : Dict String}
    (hfree : ∀ n ∈ nodes, found.find? n.name = none) : ∃ d, ofParts.index nodes found = .ok d := by
  induction nodes generalizing found with
  | nil => exact ⟨found, rfl⟩
  | cons n nodes ih =>
    rw [List.map_cons, List.nodup_cons] at hnames
    have hnew : found.contains n.name = false := by
      rw [Dict.contains, hfree n List.mem_cons_self]
      rfl
    have hrest : ∀ m ∈ nodes, (found.insert n.name n.id).find? m.name = none := by
      intro m hm
      have hne : n.name ≠ m.name := fun heq => hnames.1 (List.mem_map.2 ⟨m, hm, heq.symm⟩)
      rw [Dict.find?_insert_of_ne found hne]
      exact hfree m (List.mem_cons_of_mem n hm)
    obtain ⟨d, hd⟩ := ih hnames.2 hrest
    exact ⟨d, by rw [ofParts.index, hnew]; exact hd⟩

section Parts

variable {nodes : List Node} {edges : List Edge} {nodesAdded edgesAdded : Nat}

/-- Parts fit together when no name is there twice and every edge has its tasks. -/
def Fits (nodes : List Node) (edges : List Edge) : Prop :=
  (nodes.map Node.name).Nodup ∧
    ∀ e ∈ edges, e.source ∈ nodes.map Node.id ∧ e.target ∈ nodes.map Node.id

theorem ofParts_ok {g : TaskGraph} (h : ofParts nodes edges nodesAdded edgesAdded = .ok g) :
    Fits nodes edges ∧ g.nodes = nodes ∧ g.edges = edges ∧
      (∀ name id, g.idOf? name = some id ↔ ∃ n ∈ nodes, n.name = name ∧ n.id = id) ∧
      g.nodesAdded = max nodesAdded (mostSuffix "node_" (nodes.map Node.id)) ∧
      g.edgesAdded = max edgesAdded (mostSuffix "edge_" (edges.map Edge.id)) := by
  rw [ofParts] at h
  split at h
  · cases h
  · next index hindex =>
    obtain ⟨⟨hnames, -⟩, hfind⟩ := index_ok hindex
    dsimp only at h
    split at h
    · cases h
    · next hends =>
      cases h
      refine ⟨⟨hnames, fun e he => ?_⟩, rfl, rfl, fun name id => ?_, rfl, rfl⟩
      · simpa using List.find?_eq_none.1 hends e he
      · rw [idOf?, hfind]
        simp

theorem exists_ofParts (h : Fits nodes edges) (nodesAdded edgesAdded : Nat) :
    ∃ g, ofParts nodes edges nodesAdded edgesAdded = .ok g := by
  obtain ⟨index, hindex⟩ : ∃ d, ofParts.index nodes Dict.empty = .ok d := exists_index h.1 fun n _ => rfl
  have hends : (edges.find? fun e =>
      !((nodes.map Node.id).contains e.source && (nodes.map Node.id).contains e.target)) = none := by
    refine List.find?_eq_none.2 fun e he => ?_
    simpa using h.2 e he
  rw [ofParts, hindex]
  dsimp only
  rw [hends]
  exact ⟨_, rfl⟩

end Parts

/-! ## Graphs that say everything alike -/

/-- The index, the edges and the lists of neighbours all say what the tasks and edges say. -/
structure Mirrored (g : TaskGraph) : Prop where
  names : (g.nodes.map Node.name).Nodup
  indexed : ∀ name id, g.idOf? name = some id ↔ ∃ n ∈ g.nodes, n.name = name ∧ n.id = id
  sources : ∀ e ∈ g.edges, ∃ n ∈ g.nodes, n.id = e.source ∧ n.name = e.sourceName
  targets : ∀ e ∈ g.edges, ∃ n ∈ g.nodes, n.id = e.target ∧ n.name = e.targetName
  incoming : ∀ n ∈ g.nodes, n.incoming = (sourceNames g.edges n.id).eraseDups
  outgoing : ∀ n ∈ g.nodes, n.outgoing = (targetNames g.edges n.id).eraseDups

/-- The edges at one task lead to tasks of different names. -/
theorem nodup_neighbours {nodes : List Node} {edges : List Edge} {near far name : Edge → String}
    (hnames : (nodes.map Node.name).Nodup)
    (hfar : ∀ e ∈ edges, ∃ n ∈ nodes, n.id = far e ∧ n.name = name e)
    (hrepeat : (edges.map fun e => (near e, far e)).Nodup) (id : String) :
    ((edges.filter fun e => near e = id).map name).Nodup := by
  refine List.Nodup.map_on (fun e he e' he' heq => ?_) (hrepeat.of_map.filter _)
  obtain ⟨he, hnear⟩ := List.mem_filter.1 he
  obtain ⟨he', hnear'⟩ := List.mem_filter.1 he'
  obtain ⟨n, hn, hid, hname⟩ := hfar e he
  obtain ⟨n', hn', hid', hname'⟩ := hfar e' he'
  obtain rfl := eq_of_name_eq hnames hn hn' (hname.trans (heq.trans hname'.symm))
  refine List.inj_on_of_nodup_map hrepeat he he' (Prod.ext ?_ (hid.symm.trans hid'))
  exact (of_decide_eq_true hnear).trans (of_decide_eq_true hnear').symm

section Repeated

variable {nodes : List Node} {edges : List Edge} (hnames : (nodes.map Node.name).Nodup)
  (hrepeat : (edges.map fun e => (e.source, e.target)).Nodup)
include hnames hrepeat

theorem nodup_sourceNames (h : ∀ e ∈ edges, ∃ n ∈ nodes, n.id = e.source ∧ n.name = e.sourceName)
    (id : String) : (sourceNames edges id).Nodup := by
  have hswapped := hrepeat.map Prod.swap_injective
  rw [List.map_map] at hswapped
  exact nodup_neighbours hnames h hswapped id

theorem nodup_targetNames (h : ∀ e ∈ edges, ∃ n ∈ nodes, n.id = e.target ∧ n.name = e.targetName)
    (id : String) : (targetNames edges id).Nodup := nodup_neighbours hnames h hrepeat id

end Repeated

theorem WellFormed.mirrored {g : TaskGraph} (h : g.WellFormed) : g.Mirrored := by
  refine ⟨h.names, h.indexed, h.sources, h.targets, fun n hn => ?_, fun n hn => ?_⟩
  · rw [eraseDups_of_nodup (nodup_sourceNames h.names h.noRepeat h.sources n.id), h.incoming n hn]
  · rw [eraseDups_of_nodup (nodup_targetNames h.names h.noRepeat h.targets n.id), h.outgoing n hn]

/-- What is left to ask of a mirrored graph.  A loop is a cycle already. -/
theorem Mirrored.wellFormed_iff {g : TaskGraph} (h : g.Mirrored) :
    g.WellFormed ↔ (g.nodes.map Node.id).Nodup ∧ (g.edges.map Edge.id).Nodup ∧
      (∀ n ∈ g.nodes, Identifier.isValid n.name = true) ∧
      (g.edges.map fun e => (e.source, e.target)).Nodup ∧ Acyclic g.edges := by
  constructor
  · intro hw
    exact ⟨hw.nodeIds, hw.edgeIds, hw.validNames, hw.noRepeat, hw.acyclic⟩
  · rintro ⟨hids, hedgeIds, hvalid, hrepeat, hacyclic⟩
    refine ⟨hids, hedgeIds, h.names, hvalid, h.indexed, h.sources, h.targets, fun e he heq => ?_,
      hrepeat, hacyclic, fun n hn => ?_, fun n hn => ?_⟩
    · exact hacyclic e.source (.single ⟨e, he, rfl, heq.symm⟩)
    · rw [h.incoming n hn, eraseDups_of_nodup (nodup_sourceNames h.names hrepeat h.sources n.id)]
    · rw [h.outgoing n hn, eraseDups_of_nodup (nodup_targetNames h.names hrepeat h.targets n.id)]

end TaskGraph

/-! ## Restoring -/

namespace Snapshot

open TaskGraph (Fits Mirrored)

variable {s : Snapshot} {job : Job}

/-- The tasks of a snapshot before any edge is drawn. -/
def tasks (s : Snapshot) : List Node := s.nodes.map NodeSnapshot.restore

theorem ids_tasks (s : Snapshot) : s.tasks.map Node.id = s.nodes.map NodeSnapshot.id := by
  rw [tasks, List.map_map]
  rfl

theorem names_tasks (s : Snapshot) : s.tasks.map Node.name = s.nodes.map NodeSnapshot.name := by
  rw [tasks, List.map_map]
  rfl

theorem exists_nameOf? {nodes : List Node} {id : String} (h : id ∈ nodes.map Node.id) :
    ∃ n ∈ nodes, n.id = id ∧ nameOf? nodes id = some n.name := by
  obtain ⟨n, hn, hid⟩ := List.mem_map.1 h
  obtain ⟨m, hm⟩ := Option.isSome_iff_exists.1
    (List.find?_isSome (p := fun n : Node => n.id = id).2 ⟨n, hn, decide_eq_true hid⟩)
  exact ⟨m, List.mem_of_find?_eq_some hm, by simpa using List.find?_some hm, by rw [nameOf?, hm]; rfl⟩

theorem joins_of_mem {nodes : List Node} {e : Edge} (hs : e.source ∈ nodes.map Node.id)
    (ht : e.target ∈ nodes.map Node.id) : joins nodes e = true := by
  obtain ⟨_, _, _, hsource⟩ := exists_nameOf? hs
  obtain ⟨_, _, _, htarget⟩ := exists_nameOf? ht
  rw [joins, hsource, htarget]
  rfl

@[simp] theorem titled_id (nodes : List Node) (e : Edge) : (titled nodes e).id = e.id := by
  rw [titled]
  split <;> rfl

@[simp] theorem titled_source (nodes : List Node) (e : Edge) : (titled nodes e).source = e.source := by
  rw [titled]
  split <;> rfl

@[simp] theorem titled_target (nodes : List Node) (e : Edge) : (titled nodes e).target = e.target := by
  rw [titled]
  split <;> rfl

/-- The edges of a snapshot under the names that its tasks have. -/
def drawn (s : Snapshot) : List Edge := s.edges.map (titled s.tasks)

theorem draw_tasks (h : ∀ e ∈ s.edges, e.source ∈ s.tasks.map Node.id ∧ e.target ∈ s.tasks.map Node.id) :
    draw s.edges s.tasks = (s.tasks.map (Node.linked s.drawn), s.drawn) := by
  have hall : s.edges.filter (joins s.tasks) = s.edges :=
    List.filter_eq_self.2 fun e he => joins_of_mem (h e he).1 (h e he).2
  rw [draw_eq, hall]
  refine congrArg (·, s.drawn) (List.map_congr_left fun n hn => ?_)
  obtain ⟨kept, -, rfl⟩ := List.mem_map.1 hn
  exact foldl_attach rfl rfl rfl s.drawn

/-- What no edge changes of a task is the same behind all of them. -/
theorem foldl_attach_eq {β : Type} {p : Node → β} (hp : ∀ e n, p (attach e n) = p n) (edges : List Edge)
    (n : Node) : p (edges.foldl (fun n e => attach e n) n) = p n := by
  induction edges generalizing n with
  | nil => rfl
  | cons e edges ih => rw [List.foldl_cons, ih, hp]

/-- Drawing adds no task and no edge, so the parts fit if those of the snapshot did. -/
theorem fits_draw (s : Snapshot) :
    Fits (draw s.edges s.tasks).1 (draw s.edges s.tasks).2 ↔
      (s.nodes.map NodeSnapshot.name).Nodup ∧
        ∀ e ∈ s.edges, e.source ∈ s.nodes.map NodeSnapshot.id ∧ e.target ∈ s.nodes.map NodeSnapshot.id := by
  have hids : (draw s.edges s.tasks).1.map Node.id = s.nodes.map NodeSnapshot.id := by
    rw [draw_eq, TaskGraph.ids_map (foldl_attach_eq attach_id _), ids_tasks]
  have hnames : (draw s.edges s.tasks).1.map Node.name = s.nodes.map NodeSnapshot.name := by
    rw [draw_eq, List.map_map, ← names_tasks]
    exact List.map_congr_left fun n _ => foldl_attach_eq attach_name _ n
  rw [Fits, hids, hnames, draw_eq]
  simp

/-- Everything there is to say of a restored job. -/
structure Restored (s : Snapshot) (job : Job) : Prop where
  config : job.config = s.config
  nodes : job.graph.nodes = s.tasks.map (Node.linked s.drawn)
  edges : job.graph.edges = s.drawn
  names : (s.nodes.map NodeSnapshot.name).Nodup
  ends : ∀ e ∈ s.edges, e.source ∈ s.nodes.map NodeSnapshot.id ∧ e.target ∈ s.nodes.map NodeSnapshot.id
  indexed : ∀ name id, job.graph.idOf? name = some id ↔ ∃ n ∈ job.graph.nodes, n.name = name ∧ n.id = id
  nodesAdded : job.graph.nodesAdded =
    max s.counters.nodesAdded (TaskGraph.mostSuffix "node_" (s.nodes.map NodeSnapshot.id))
  edgesAdded : job.graph.edgesAdded =
    max s.counters.edgesAdded (TaskGraph.mostSuffix "edge_" (s.edges.map Edge.id))

theorem restore_eq (s : Snapshot) :
    s.restore = match TaskGraph.ofParts (draw s.edges s.tasks).1 (draw s.edges s.tasks).2
        s.counters.nodesAdded s.counters.edgesAdded with
      | .error error => .error error
      | .ok graph => .ok ⟨s.config, graph⟩ := rfl

theorem restored (h : s.restore = .ok job) : s.Restored job := by
  rw [restore_eq] at h
  split at h
  · cases h
  · next g hparts =>
    cases h
    obtain ⟨hfits, hnodes, hedges, hindexed, hnodesAdded, hedgesAdded⟩ := TaskGraph.ofParts_ok hparts
    obtain ⟨hnames, hends⟩ := (fits_draw s).1 hfits
    have hdraw : draw s.edges s.tasks = (s.tasks.map (Node.linked s.drawn), s.drawn) := by
      refine draw_tasks ?_
      rw [ids_tasks]
      exact hends
    rw [hdraw] at hnodes hedges hindexed hnodesAdded hedgesAdded
    refine ⟨rfl, hnodes, hedges, hnames, hends, ?_, ?_, ?_⟩
    · rw [hnodes]
      exact hindexed
    · rw [hnodesAdded, ← ids_tasks, TaskGraph.ids_map (f := Node.linked s.drawn) fun _ => rfl]
    · rw [hedgesAdded, drawn, List.map_map]
      simp only [Function.comp_def, titled_id]

theorem exists_restore (hnames : (s.nodes.map NodeSnapshot.name).Nodup)
    (hends : ∀ e ∈ s.edges,
      e.source ∈ s.nodes.map NodeSnapshot.id ∧ e.target ∈ s.nodes.map NodeSnapshot.id) :
    ∃ job, s.restore = .ok job := by
  obtain ⟨g, hg⟩ := TaskGraph.exists_ofParts ((fits_draw s).2 ⟨hnames, hends⟩)
    s.counters.nodesAdded s.counters.edgesAdded
  exact ⟨⟨s.config, g⟩, by rw [restore_eq, hg]⟩

namespace Restored

theorem ids (h : s.Restored job) : job.graph.nodes.map Node.id = s.nodes.map NodeSnapshot.id := by
  rw [h.nodes, TaskGraph.ids_map (f := Node.linked s.drawn) fun _ => rfl, ids_tasks]

theorem edgeIds (h : s.Restored job) : job.graph.edges.map Edge.id = s.edges.map Edge.id := by
  rw [h.edges, drawn, List.map_map]
  exact List.map_congr_left fun e _ => titled_id s.tasks e

theorem namesOfTasks (h : s.Restored job) :
    job.graph.nodes.map Node.name = s.nodes.map NodeSnapshot.name := by
  rw [h.nodes, List.map_map, ← names_tasks]
  rfl

/-- The edges take the names of the tasks they are drawn between. -/
theorem mirrored (h : s.Restored job) : job.graph.Mirrored := by
  have hedge : ∀ e ∈ job.graph.edges, ∃ kept ∈ s.edges, titled s.tasks kept = e := by
    intro e he
    rw [h.edges] at he
    exact List.mem_map.1 he
  have hthere : ∀ n ∈ s.tasks, n.linked s.drawn ∈ job.graph.nodes := fun n hn => by
    rw [h.nodes]
    exact List.mem_map_of_mem hn
  have hlinked : ∀ n ∈ job.graph.nodes, n.linked job.graph.edges = n := by
    intro n hn
    rw [h.nodes] at hn
    obtain ⟨task, -, rfl⟩ := List.mem_map.1 hn
    rw [h.edges]
    rfl
  have htitled : ∀ kept ∈ s.edges, ∃ m ∈ s.tasks, ∃ n ∈ s.tasks, m.id = kept.source ∧ n.id = kept.target ∧
      titled s.tasks kept = { kept with sourceName := m.name, targetName := n.name } := by
    intro kept hkept
    obtain ⟨hs, ht⟩ := h.ends kept hkept
    rw [← ids_tasks] at hs ht
    obtain ⟨m, hm, hmid, hsource⟩ := exists_nameOf? hs
    obtain ⟨n, hn, hnid, htarget⟩ := exists_nameOf? ht
    refine ⟨m, hm, n, hn, hmid, hnid, ?_⟩
    rw [titled, hsource, htarget]
  refine ⟨h.namesOfTasks ▸ h.names, h.indexed, fun e he => ?_, fun e he => ?_, fun n hn => ?_, fun n hn => ?_⟩
  · obtain ⟨kept, hkept, rfl⟩ := hedge e he
    obtain ⟨m, hm, _, _, hid, _, heq⟩ := htitled kept hkept
    rw [heq]
    exact ⟨_, hthere m hm, hid, rfl⟩
  · obtain ⟨kept, hkept, rfl⟩ := hedge e he
    obtain ⟨_, _, n, hn, _, hid, heq⟩ := htitled kept hkept
    rw [heq]
    exact ⟨_, hthere n hn, hid, rfl⟩
  · exact (congrArg Node.incoming (hlinked n hn)).symm
  · exact (congrArg Node.outgoing (hlinked n hn)).symm

/-- What makes the restored graph a pipeline is what makes the snapshot one. -/
theorem wellFormed_iff (h : s.Restored job) :
    job.graph.WellFormed ↔ (s.nodes.map NodeSnapshot.id).Nodup ∧ (s.edges.map Edge.id).Nodup ∧
      (∀ n ∈ s.nodes, Identifier.isValid n.name = true) ∧
      (s.edges.map fun e => (e.source, e.target)).Nodup ∧ Acyclic s.edges := by
  have hpairs : (job.graph.edges.map fun e => (e.source, e.target)) =
      s.edges.map fun e => (e.source, e.target) := by
    rw [h.edges, drawn, List.map_map]
    exact List.map_congr_left fun e _ => Prod.ext (titled_source s.tasks e) (titled_target s.tasks e)
  have hways : Acyclic job.graph.edges ↔ Acyclic s.edges := by
    rw [Acyclic, Acyclic, h.edges, drawn,
      feeds_map fun e => ⟨titled_source s.tasks e, titled_target s.tasks e⟩]
  have hvalid : (∀ n ∈ job.graph.nodes, Identifier.isValid n.name = true) ↔
      ∀ n ∈ s.nodes, Identifier.isValid n.name = true := by
    rw [← List.forall_mem_map (f := Node.name) (P := fun name => Identifier.isValid name = true),
      h.namesOfTasks, List.forall_mem_map]
  rw [h.mirrored.wellFormed_iff, h.ids, h.edgeIds, hpairs, hways, hvalid]

end Restored

/-- A snapshot is restored exactly if its names differ and its edges have their ends.  The graph
then says everything alike, but what else makes it a pipeline is left to the snapshot. -/
theorem wellFormed_restored_iff (s : Snapshot) :
    ((∃ job, s.restore = .ok job) ↔
      (s.nodes.map NodeSnapshot.name).Nodup ∧
        ∀ e ∈ s.edges, e.source ∈ s.nodes.map NodeSnapshot.id ∧ e.target ∈ s.nodes.map NodeSnapshot.id) ∧
    ∀ job, s.restore = .ok job → job.graph.Mirrored ∧
      (job.graph.WellFormed ↔ (s.nodes.map NodeSnapshot.id).Nodup ∧ (s.edges.map Edge.id).Nodup ∧
        (∀ n ∈ s.nodes, Identifier.isValid n.name = true) ∧
        (s.edges.map fun e => (e.source, e.target)).Nodup ∧ Acyclic s.edges) := by
  refine ⟨⟨?_, fun h => exists_restore h.1 h.2⟩, fun job h => ?_⟩
  · rintro ⟨job, h⟩
    exact ⟨(restored h).names, (restored h).ends⟩
  · exact ⟨(restored h).mirrored, (restored h).wellFormed_iff⟩

/-- Two tasks that feed each other. -/
def loopSnapshot : Snapshot :=
  { format := currentFormat
    config := JobConfig.ofType .webhook
    nodes := [⟨"node_1", "a", .any, Dict.empty, Mock.off, Position.origin⟩,
      ⟨"node_2", "b", .any, Dict.empty, Mock.off, Position.origin⟩]
    edges := [⟨"edge_1", "node_1", "node_2", "a", "b"⟩, ⟨"edge_2", "node_2", "node_1", "b", "a"⟩]
    counters := ⟨2, 2⟩ }

theorem wellFormed_restored_iff_loopSnapshot :
    ∃ job, loopSnapshot.restore = .ok job ∧ job.graph.Mirrored ∧ ¬job.graph.WellFormed := by
  obtain ⟨hrestore, hgraph⟩ := wellFormed_restored_iff loopSnapshot
  obtain ⟨job, hjob⟩ := hrestore.2 (by decide)
  obtain ⟨hmirrored, hiff⟩ := hgraph job hjob
  refine ⟨job, hjob, hmirrored, fun hw => ?_⟩
  obtain ⟨-, -, -, -, hacyclic⟩ := hiff.1 hw
  have hthere : Feeds loopSnapshot.edges "node_1" "node_2" := ⟨_, List.mem_cons_self, rfl, rfl⟩
  have hback : Feeds loopSnapshot.edges "node_2" "node_1" :=
    ⟨_, List.mem_cons_of_mem _ List.mem_cons_self, rfl, rfl⟩
  exact hacyclic "node_1" (.tail (.single hthere) hback)

end Snapshot
end JobPipeline
