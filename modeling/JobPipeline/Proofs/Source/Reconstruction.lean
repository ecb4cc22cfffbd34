import JobPipeline.Proofs.Graph.History
import JobPipeline.Proofs.Matching
import JobPipeline.Source.Layout

/-
The graph of a parsed pipeline.

Adding the tasks cannot fail when their names are distinct and can be given, and
adding the edges cannot fail when no way along them comes back to where it began.
The edges of a graph are by ids and those of a parsed pipeline by names, so a way
in one is carried to the other by the map between the two.
-/
namespace JobPipeline

open Relation (ReflTransGen TransGen)

def Edge.named (e : Edge) : ParsedEdge := ⟨e.sourceName, e.targetName⟩

/-- Some edge leads from one name to another. -/
def Leads (edges : List ParsedEdge) (a b : String) : Prop := (⟨a, b⟩ : ParsedEdge) ∈ edges

/-- What a task is apart from its neighbours and its evaluation. -/
structure Node.Content where
  id : String
  name : String
  kind : TaskKind
  fields : Dict String

def Node.content (n : Node) : Node.Content := ⟨n.id, n.name, n.kind, n.fields⟩

/-- The text of each attribute. -/
def ParsedTask.texts (task : ParsedTask) : List (String × String) :=
  task.attributes.entries.map fun (key, text) => (key, text.raw)

/-- A node is what a parsed task says, with the kind's defaults below. -/
structure Carries (task : ParsedTask) (n : Node) : Prop where
  name : n.name = task.name
  kind : n.kind = task.kind
  fields : n.fields = task.kind.defaults.insertAll task.texts

namespace Node

theorem receives_content {id : String} {event : NodeEvent} {n : Node}
    (h : (n.send event).1.content = n.content) : (n.receives id event).content = n.content := by
  rw [receives]
  split
  · exact h
  · rfl

@[simp] theorem joined_content (n s t : Node) : (n.joined s t).content = n.content := by
  have hout : ∀ m : Node, (m.send (.addOutgoing t.name)).1.content = m.content := by
    intro m
    simp only [send]
    split <;> rfl
  have hin : ∀ m : Node, (m.send (.addIncoming s.name)).1.content = m.content := by
    intro m
    simp only [send]
    split <;> rfl
  rw [joined, receives_content (hin _), receives_content (hout _)]

end Node

namespace TaskGraph

/-! ## Names and ids -/

def nameOf (g : TaskGraph) (id : String) : String := ((g.node? id).map Node.name).getD ""

theorem WellFormed.nameOf_source {g : TaskGraph} (h : g.WellFormed) {e : Edge} (he : e ∈ g.edges) :
    g.nameOf e.source = e.sourceName := by
  obtain ⟨n, hn, hid, hname⟩ := h.sources e he
  rw [nameOf, ← hid, node?_eq_some h.nodeIds hn]
  exact hname

theorem WellFormed.nameOf_target {g : TaskGraph} (h : g.WellFormed) {e : Edge} (he : e ∈ g.edges) :
    g.nameOf e.target = e.targetName := by
  obtain ⟨n, hn, hid, hname⟩ := h.targets e he
  rw [nameOf, ← hid, node?_eq_some h.nodeIds hn]
  exact hname

theorem WellFormed.idOf?_of_mem {g : TaskGraph} (h : g.WellFormed) {n : Node} (hn : n ∈ g.nodes) :
    g.idOf? n.name = some n.id := (h.indexed n.name n.id).2 ⟨n, hn, rfl, rfl⟩

theorem WellFormed.idOf?_sourceName {g : TaskGraph} (h : g.WellFormed) {e : Edge}
    (he : e ∈ g.edges) : g.idOf? e.sourceName = some e.source := by
  obtain ⟨n, hn, hid, hname⟩ := h.sources e he
  rw [← hname, ← hid, h.idOf?_of_mem hn]

theorem WellFormed.idOf?_targetName {g : TaskGraph} (h : g.WellFormed) {e : Edge}
    (he : e ∈ g.edges) : g.idOf? e.targetName = some e.target := by
  obtain ⟨n, hn, hid, hname⟩ := h.targets e he
  rw [← hname, ← hid, h.idOf?_of_mem hn]

/-- A way along the edges is a way along their names. -/
theorem WellFormed.way_by_names {g : TaskGraph} (h : g.WellFormed) {a b : String}
    (hway : ReflTransGen (Feeds g.edges) a b) :
    ReflTransGen (Leads (g.edges.map Edge.named)) (g.nameOf a) (g.nameOf b) := by
  refine ReflTransGen.lift g.nameOf (fun c d hcd => ?_) a b hway
  obtain ⟨e, he, rfl, rfl⟩ := hcd
  show (⟨g.nameOf e.source, g.nameOf e.target⟩ : ParsedEdge) ∈ g.edges.map Edge.named
  rw [h.nameOf_source he, h.nameOf_target he]
  exact List.mem_map_of_mem he

/-- No way along the names of some edges comes back to where it began. -/
theorem WellFormed.acyclic_by_names {g : TaskGraph} (h : g.WellFormed) {edges : List Edge}
    (hedges : ∀ e ∈ edges, e ∈ g.edges) (a : String) :
    ¬TransGen (Leads (edges.map Edge.named)) a a := by
  intro hcycle
  refine h.acyclic ((g.idOf? a).getD "") ?_
  refine TransGen.lift (fun name => (g.idOf? name).getD "") (fun c d hcd => ?_) a a hcycle
  obtain ⟨e, he, hnamed⟩ := List.mem_map.1 (show (⟨c, d⟩ : ParsedEdge) ∈ _ from hcd)
  have hc : e.sourceName = c := congrArg ParsedEdge.source hnamed
  have hd : e.targetName = d := congrArg ParsedEdge.target hnamed
  show Feeds g.edges ((g.idOf? c).getD "") ((g.idOf? d).getD "")
  rw [← hc, ← hd, h.idOf?_sourceName (hedges e he), h.idOf?_targetName (hedges e he)]
  exact feeds_of_mem (hedges e he)

/-! ## Adding the tasks -/

theorem Sound.setFields_last {g : TaskGraph} (h : g.Sound) {nodes : List Node} {n : Node}
    (hnodes : g.nodes = nodes ++ [n]) (values : List (String × String)) :
    (g.setFields n.id values).2 =
      { g with nodes := nodes ++ [{ n with fields := n.fields.insertAll values }] } := by
  have hn : n ∈ g.nodes := by
    rw [hnodes]
    exact List.mem_append_right _ List.mem_cons_self
  have hhas : g.hasNode n.id = true := by
    rw [hasNode, node?_eq_some h.wellFormed.nodeIds hn]
    rfl
  have hothers : ∀ m ∈ nodes, m.id ≠ n.id := by
    intro m hm heq
    have hids := h.wellFormed.nodeIds
    rw [hnodes, List.map_append, List.nodup_append'] at hids
    exact hids.2.2 (List.mem_map_of_mem hm) (by rw [heq]; exact List.mem_cons_self)
  rw [setFields, TaskGraph.change, if_pos hhas]
  show g.updateNode n.id _ = _
  rw [updateNode, updateFirst_eq_map h.wellFormed.nodeIds, hnodes, List.map_append,
    List.map_congr_left fun m hm => if_neg (hothers m hm), List.map_id', List.map_singleton,
    if_pos rfl]
  rfl

theorem Sound.nameError?_eq_none {g : TaskGraph} (h : g.Sound) {name : String}
    (hvalid : Identifier.isValid name = true) (hnew : name ∉ g.nodes.map Node.name) :
    g.nameError? name none = none := by
  have hnone : g.idOf? name = none := by
    cases hid : g.idOf? name with
    | none => rfl
    | some id =>
      obtain ⟨n, hn, hname, _⟩ := (h.wellFormed.indexed name id).1 hid
      exact absurd (List.mem_map.2 ⟨n, hn, hname⟩) hnew
  rw [nameError?, hvalid, hnone]
  rfl

/-- Tasks with distinct new names are all added, in their order. -/
theorem addTasks_eq (tasks : List (ParsedTask × (Nat × Nat))) {g : TaskGraph} (h : g.Sound)
    (hvalid : ∀ t ∈ tasks, Identifier.isValid t.1.name = true)
    (hnames : (g.nodes.map Node.name ++ tasks.map fun t => t.1.name).Nodup) :
    ∃ g' new, ParsedSource.addTasks tasks g = .ok g' ∧ g'.Sound ∧ g'.edges = g.edges ∧
      g'.nodes = g.nodes ++ new ∧ List.Forall₂ Carries (tasks.map Prod.fst) new := by
  induction tasks generalizing g with
  | nil => exact ⟨g, [], rfl, h, rfl, (List.append_nil _).symm, .nil⟩
  | cons head rest ih =>
    obtain ⟨task, place⟩ := head
    have hnew : task.name ∉ g.nodes.map Node.name := fun hmem =>
      (List.nodup_append'.1 hnames).2.2 hmem List.mem_cons_self
    have herror := h.nameError?_eq_none (hvalid _ List.mem_cons_self) hnew
    let node := g.newNode task.kind task.name (Layout.position place)
    let grown := g.grown task.kind task.name (Layout.position place)
    have hgrown : grown.Sound := h.grown herror
    have hadd : g.addNamed task.kind task.name (Layout.position place) none = (.ok node.id, grown) := by
      rw [addNamed, herror]
      rfl
    have hset := hgrown.setFields_last (n := node) rfl task.texts
    have hsound : (grown.setFields node.id task.texts).2.Sound :=
      hgrown.after (.setFields node.id task.texts)
    rw [hset] at hsound
    obtain ⟨g', new, hall, hg', hedges, hnodes, hcarries⟩ := ih hsound
      (fun t ht => hvalid t (List.mem_cons_of_mem _ ht)) (by
        rw [List.map_append, List.append_assoc]
        exact hnames)
    have hcarry : Carries task { node with fields := node.fields.insertAll task.texts } :=
      ⟨rfl, rfl, rfl⟩
    refine ⟨g', _ :: new, ?_, hg', hedges, ?_, .cons hcarry hcarries⟩
    · rw [ParsedSource.addTasks, hadd]
      show ParsedSource.addTasks rest (grown.setFields node.id task.texts).2 = _
      rw [hset, hall]
    · rw [hnodes, List.append_assoc]
      rfl

/-! ## Adding the edges -/

theorem Sound.connectNamed_ok {g : TaskGraph} (h : g.Sound) {s t : Node} (hs : s ∈ g.nodes)
    (ht : t ∈ g.nodes) (hnew : (⟨s.name, t.name⟩ : ParsedEdge) ∉ g.edges.map Edge.named)
    (hback : ¬ReflTransGen (Leads (g.edges.map Edge.named)) t.name s.name) :
    ∃ id, g.connectNamed s.name t.name = (.ok id, (g.insertEdge s t).2) := by
  have hw := h.wellFormed
  have hloop : s.id ≠ t.id := by
    intro heq
    rw [eq_of_id_eq hw.nodeIds hs ht heq] at hback
    exact hback .refl
  have hthere : (g.edges.any fun e => e.source = s.id && e.target = t.id) = false := by
    rw [List.any_eq_false]
    intro e he hends
    simp only [Bool.and_eq_true, decide_eq_true_eq] at hends
    refine hnew (List.mem_map.2 ⟨e, he, ?_⟩)
    rw [Edge.named, (hw.sourceName_eq_iff he hs).2 hends.1, (hw.targetName_eq_iff he ht).2 hends.2]
  have hcycle : g.reaches t.id s.id = false := by
    rw [Bool.eq_false_iff, ne_eq, reaches_iff]
    intro hway
    have hnames := hw.way_by_names hway
    rw [nameOf, nameOf, node?_eq_some hw.nodeIds hs, node?_eq_some hw.nodeIds ht] at hnames
    exact hback hnames
  refine ⟨(g.newEdge s t).id, ?_⟩
  rw [TaskGraph.connectNamed, hw.idOf?_of_mem hs, hw.idOf?_of_mem ht]
  show g.connect s.id t.id = _
  rw [TaskGraph.connect, node?_eq_some hw.nodeIds hs, node?_eq_some hw.nodeIds ht]
  simp only [if_neg hloop, hthere, hcycle]
  rw [insertEdge_eq hw.nodeIds hs ht]
  rfl

theorem WellFormed.named_insertEdge {g : TaskGraph} (h : g.WellFormed) {s t : Node} (hs : s ∈ g.nodes)
    (ht : t ∈ g.nodes) :
    (g.insertEdge s t).2.edges.map Edge.named = g.edges.map Edge.named ++ [⟨s.name, t.name⟩] := by
  rw [insertEdge_eq h.nodeIds hs ht, List.map_append]
  rfl

theorem WellFormed.content_insertEdge {g : TaskGraph} (h : g.WellFormed) {s t : Node} (hs : s ∈ g.nodes)
    (ht : t ∈ g.nodes) : (g.insertEdge s t).2.nodes.map Node.content = g.nodes.map Node.content := by
  rw [insertEdge_eq h.nodeIds hs ht, List.map_map]
  exact List.map_congr_left fun n _ => Node.joined_content ..

/-- Edges without repetition between tasks that are there are all added, in their
order, when no way along them comes back to where it began. -/
theorem addEdges_eq (edges : List ParsedEdge) {g : TaskGraph} (h : g.Sound)
    (hends : ∀ e ∈ edges, e.source ∈ g.nodes.map Node.name ∧ e.target ∈ g.nodes.map Node.name)
    (hnodup : (g.edges.map Edge.named ++ edges).Nodup)
    (hacyclic : ∀ a, ¬TransGen (Leads (g.edges.map Edge.named ++ edges)) a a) :
    ∃ g', ParsedSource.addEdges edges g = .ok g' ∧ g'.Sound ∧
      g'.edges.map Edge.named = g.edges.map Edge.named ++ edges ∧
      g'.nodes.map Node.content = g.nodes.map Node.content := by
  induction edges generalizing g with
  | nil => exact ⟨g, rfl, h, (List.append_nil _).symm, rfl⟩
  | cons edge rest ih =>
    obtain ⟨⟨s, hs, hsname⟩, ⟨t, ht, htname⟩⟩ :=
      (hends edge List.mem_cons_self).imp List.mem_map.1 List.mem_map.1
    have hedge : edge = ⟨s.name, t.name⟩ := by rw [hsname, htname]
    subst hedge
    have hnew : (⟨s.name, t.name⟩ : ParsedEdge) ∉ g.edges.map Edge.named := fun hmem =>
      (List.nodup_append'.1 hnodup).2.2 hmem List.mem_cons_self
    have hback : ¬ReflTransGen (Leads (g.edges.map Edge.named)) t.name s.name := by
      intro hway
      have hstep : Leads (g.edges.map Edge.named ++ ⟨s.name, t.name⟩ :: rest) s.name t.name :=
        List.mem_append_right _ List.mem_cons_self
      have hlift : ReflTransGen (Leads (g.edges.map Edge.named ++ ⟨s.name, t.name⟩ :: rest))
          t.name s.name :=
        ReflTransGen.mono (fun _ _ (hab : Leads _ _ _) => List.mem_append_left _ hab) _ _ hway
      exact hacyclic s.name (TransGen.head' hstep hlift)
    obtain ⟨id, hconnect⟩ := h.connectNamed_ok hs ht hnew hback
    have hsound : (g.insertEdge s t).2.Sound := by
      have := h.connectNamed s.name t.name
      rwa [hconnect] at this
    have hnamed := h.wellFormed.named_insertEdge hs ht
    have hcontent := h.wellFormed.content_insertEdge hs ht
    have hnames : (g.insertEdge s t).2.nodes.map Node.name = g.nodes.map Node.name := by
      have := congrArg (List.map Node.Content.name) hcontent
      rwa [List.map_map, List.map_map] at this
    obtain ⟨g', hall, hg', hedges, hnodes⟩ := ih hsound
      (fun e he => hnames ▸ hends e (List.mem_cons_of_mem _ he))
      (by rw [hnamed, List.append_assoc]; exact hnodup)
      (by rw [hnamed, List.append_assoc]; exact hacyclic)
    refine ⟨g', ?_, hg', ?_, hnodes.trans hcontent⟩
    · rw [ParsedSource.addEdges, hconnect]
      exact hall
    · rw [hedges, hnamed, List.append_assoc]
      rfl

end TaskGraph

theorem Layout.length_placesFrom (taken rows : List Nat) :
    (Layout.placesFrom taken rows).length = rows.length := by
  induction rows generalizing taken with
  | nil => rfl
  | cons row rows ih => rw [Layout.placesFrom, List.length_cons, List.length_cons, ih]

theorem Layout.length_places (p : ParsedSource) : (Layout.places p).length = p.tasks.length := by
  rw [Layout.places, Layout.length_placesFrom, Layout.taskRows, List.length_map]

namespace ParsedSource

theorem map_fst_places (p : ParsedSource) : (p.tasks.zip (Layout.places p)).map Prod.fst = p.tasks :=
  List.map_fst_zip (Nat.le_of_eq (Layout.length_places p).symm)

/-- A parsed pipeline whose names can be given and whose edges close no cycle is
the pipeline of a graph, with exactly its tasks and edges. -/
theorem graph_eq {p : ParsedSource} (hnames : (p.tasks.map ParsedTask.name).Nodup)
    (hvalid : ∀ t ∈ p.tasks, Identifier.isValid t.name = true)
    (hends : ∀ e ∈ p.edges, e.source ∈ p.tasks.map ParsedTask.name ∧
      e.target ∈ p.tasks.map ParsedTask.name)
    (hnodup : p.edges.Nodup) (hacyclic : ∀ a, ¬TransGen (Leads p.edges) a a) :
    ∃ g, p.graph = .ok g ∧ g.Sound ∧ List.Forall₂ Carries p.tasks g.nodes ∧
      g.edges.map Edge.named = p.edges := by
  have hfst := p.map_fst_places
  have hzip : (p.tasks.zip (Layout.places p)).map (fun t => t.1.name) =
      p.tasks.map ParsedTask.name := by
    rw [← hfst, List.map_map, hfst]
    rfl
  obtain ⟨g, new, hadded, hg, hgedges, hgnodes, hcarries⟩ :=
    TaskGraph.addTasks_eq (p.tasks.zip (Layout.places p)) TaskGraph.sound_empty
      (fun t ht => hvalid t.1 (by rw [← hfst]; exact List.mem_map_of_mem ht))
      (by rw [hzip]; exact hnames)
  have hempty : g.edges = [] := hgedges
  have hnew : g.nodes = new := hgnodes
  rw [hfst] at hcarries
  subst hnew
  have hsame : g.nodes.map Node.name = p.tasks.map ParsedTask.name :=
    (map_eq_of_forall₂ hcarries fun _ _ hc => hc.name.symm).symm
  obtain ⟨g', hjoined, hg', hedges, hcontent⟩ := TaskGraph.addEdges_eq p.edges hg
    (by rw [hsame]; exact hends) (by rw [hempty]; exact hnodup) (by rw [hempty]; exact hacyclic)
  refine ⟨g', ?_, hg', ?_, by rw [hedges, hempty]; rfl⟩
  · rw [graph, hadded]
    exact hjoined
  · -- What a node carries is a matter of its content, which the edges leave alone.
    let carriesContent (task : ParsedTask) (c : Node.Content) : Prop :=
      c.name = task.name ∧ c.kind = task.kind ∧
        c.fields = task.kind.defaults.insertAll task.texts
    have hcontents : List.Forall₂ carriesContent p.tasks (g.nodes.map Node.content) :=
      List.forall₂_map_right_iff.2 (hcarries.imp fun _ _ hc => ⟨hc.name, hc.kind, hc.fields⟩)
    rw [← hcontent] at hcontents
    exact (List.forall₂_map_right_iff.1 hcontents).imp fun _ _ hc => ⟨hc.1, hc.2.1, hc.2.2⟩

end ParsedSource
end JobPipeline
