import JobPipeline.Proofs.Source.Declared
import JobPipeline.Proofs.Source.Reconstruction

/-
Which parsed pipelines have a graph.

Edges are added one at a time, and each is tried against those before it only.  The order
does not matter all the same: an edge is refused if it closes a cycle with some edges of
the pipeline, and once all are in, the graph is acyclic, and so the pipeline is.  Of the
other refusals none is left to a parsed pipeline but that of a keyword as a name.  Its
names are words and distinct, its edges distinct and between declared tasks.

Parsing and adding count the tasks separately.  Both begin at one and count all of them.
-/
namespace JobPipeline

open Relation (ReflTransGen TransGen)

namespace TaskGraph

/-! ## What was added -/

theorem addNamed_ok {g g' : TaskGraph} {kind : TaskKind} {name id : String} {position : Position}
    (h : g.addNamed kind name position none = (.ok id, g')) :
    g.nameError? name none = none ∧ id = (g.newNode kind name position).id ∧
      g' = g.grown kind name position := by
  rw [addNamed] at h
  cases herror : g.nameError? name none with
  | some error =>
    rw [herror] at h
    cases h
  | none =>
    rw [herror] at h
    cases h
    exact ⟨rfl, rfl, rfl⟩

theorem ids_setFields (g : TaskGraph) (id : String) (values : List (String × String)) :
    (g.setFields id values).2.nodes.map Node.id = g.nodes.map Node.id := by
  rw [setFields, change]
  split
  · exact ids_updateFirst _ (fun n => n.send_id _) g.nodes
  · rfl

theorem nodesAdded_setFields (g : TaskGraph) (id : String) (values : List (String × String)) :
    (g.setFields id values).2.nodesAdded = g.nodesAdded := by
  rw [setFields, change]
  split <;> rfl

/-- Tasks that were all added had names that could be given, and ids that count them. -/
theorem ids_of_addTasks {tasks : List (ParsedTask × (Nat × Nat))} {g g' : TaskGraph}
    (h : ParsedSource.addTasks tasks g = .ok g') (hids : g.nodes.map Node.id = Source.idsTo g.nodesAdded) :
    (∀ t ∈ tasks, Identifier.isValid t.1.name = true) ∧
      g'.nodes.map Node.id = Source.idsTo (g.nodesAdded + tasks.length) := by
  induction tasks generalizing g with
  | nil =>
    cases h
    exact ⟨fun t ht => (by cases ht), hids⟩
  | cons head rest ih =>
    obtain ⟨task, place⟩ := head
    rw [ParsedSource.addTasks] at h
    cases hadd : g.addNamed task.kind task.name (Layout.position place) none with
    | mk answer grown =>
      rw [hadd] at h
      cases answer with
      | error error => cases h
      | ok id =>
        obtain ⟨hname, -, rfl⟩ := addNamed_ok hadd
        have hgrown : (g.grown task.kind task.name (Layout.position place)).nodes.map Node.id =
            Source.idsTo (g.nodesAdded + 1) := by
          rw [Source.idsTo_succ, ← hids, TaskGraph.grown, List.map_append]
          rfl
        obtain ⟨hvalid, hall⟩ := ih h (by rw [ids_setFields, nodesAdded_setFields]; exact hgrown)
        refine ⟨List.forall_mem_cons.2 ⟨isValid_of_nameError? hname, hvalid⟩, ?_⟩
        rw [hall, nodesAdded_setFields, List.length_cons, ← Nat.succ_add_eq_add_succ]
        rfl

/-- An edge that was added joins tasks of the names given. -/
theorem Sound.connectNamed_inv {g g' : TaskGraph} (h : g.Sound) {source target id : String}
    (hconnect : g.connectNamed source target = (.ok id, g')) :
    ∃ s ∈ g.nodes, ∃ t ∈ g.nodes, s.name = source ∧ t.name = target ∧ g' = (g.insertEdge s t).2 := by
  have hinsert : ∀ s t, g.connect s t = (.ok id, g') →
      ∃ m n, g.node? s = some m ∧ g.node? t = some n ∧ g' = (g.insertEdge m n).2 := by
    intro s t hst
    rw [TaskGraph.connect] at hst
    split at hst
    · cases hst
    · cases hst
    · next m n hm hn =>
      split at hst
      · cases hst
      · split at hst
        · cases hst
        · split at hst
          · cases hst
          · exact ⟨m, n, hm, hn, by rw [hst]⟩
  rw [TaskGraph.connectNamed] at hconnect
  split at hconnect
  · cases hconnect
  · cases hconnect
  · next s t hs ht =>
    obtain ⟨m, n, hm, hn, hg'⟩ := hinsert s t hconnect
    obtain ⟨m', hm', rfl, rfl⟩ := (h.wellFormed.indexed source s).1 hs
    obtain ⟨n', hn', rfl, rfl⟩ := (h.wellFormed.indexed target t).1 ht
    rw [node?_eq_some h.wellFormed.nodeIds hm'] at hm
    rw [node?_eq_some h.wellFormed.nodeIds hn'] at hn
    cases hm
    cases hn
    exact ⟨m, hm', n, hn', rfl, rfl, hg'⟩

/-- What holds after every edge holds after all of them. -/
theorem Sound.addEdges_induction {P : List ParsedEdge → TaskGraph → Prop}
    (hstep : ∀ {done g s t}, g.Sound → s ∈ g.nodes → t ∈ g.nodes → P done g →
      P (done ++ [⟨s.name, t.name⟩]) (g.insertEdge s t).2)
    (done : List ParsedEdge) {edges : List ParsedEdge} {g g' : TaskGraph} (h : g.Sound) (hdone : P done g)
    (hadd : ParsedSource.addEdges edges g = .ok g') : g'.Sound ∧ P (done ++ edges) g' := by
  induction edges generalizing done g with
  | nil =>
    cases hadd
    rw [List.append_nil]
    exact ⟨h, hdone⟩
  | cons edge rest ih =>
    rw [ParsedSource.addEdges] at hadd
    cases hconnect : g.connectNamed edge.source edge.target with
    | mk answer joined =>
      rw [hconnect] at hadd
      cases answer with
      | error error => cases hadd
      | ok id =>
        have hsound := h.connectNamed edge.source edge.target
        rw [hconnect] at hsound
        obtain ⟨s, hs, t, ht, hsource, htarget, rfl⟩ := h.connectNamed_inv hconnect
        have hnext := hstep h hs ht hdone
        rw [hsource, htarget] at hnext
        rw [List.append_cons]
        exact ih _ hsound hnext hadd

/-- Edges that were all added are in the graph behind those before, and nothing else of it
is another. -/
theorem Sound.edges_of_addEdges {edges : List ParsedEdge} {g g' : TaskGraph} (h : g.Sound)
    (hadd : ParsedSource.addEdges edges g = .ok g') :
    g'.Sound ∧ g'.edges.map Edge.named = g.edges.map Edge.named ++ edges ∧
      g'.nodes.map Node.content = g.nodes.map Node.content := by
  refine Sound.addEdges_induction (P := fun done joined =>
    joined.edges.map Edge.named = g.edges.map Edge.named ++ done ∧
      joined.nodes.map Node.content = g.nodes.map Node.content)
    (fun hsound hs ht => ?_) [] h ⟨(List.append_nil _).symm, rfl⟩ hadd
  rintro ⟨hedges, hnodes⟩
  refine ⟨?_, (hsound.wellFormed.content_insertEdge hs ht).trans hnodes⟩
  rw [hsound.wellFormed.named_insertEdge hs ht, hedges, List.append_assoc]

end TaskGraph

/-! ## The graph of a parsed pipeline -/

/-- A node is what a parsed task says, under the same id. -/
structure Rebuilds (task : ParsedTask) (n : Node) : Prop extends Carries task n where
  id : n.id = task.id

namespace ParsedSource

variable {p : ParsedSource}

/-- The graph of a pipeline comes of its tasks, whose names can all be given, and then of its
edges. -/
theorem Declared.exists_of_graph (hd : p.Declared) {g : TaskGraph} (h : p.graph = .ok g) :
    (∀ t ∈ p.tasks, Identifier.isValid t.name = true) ∧
      ∃ tasks, addTasks (p.tasks.zip (Layout.places p)) TaskGraph.empty = .ok tasks ∧ tasks.Sound ∧
        tasks.edges = [] ∧ tasks.nodes.map Node.id = Source.idsTo p.tasks.length ∧
        addEdges p.edges tasks = .ok g := by
  rw [graph] at h
  split at h
  · cases h
  · next tasks hadded =>
    have hfst := p.map_fst_places
    have hlength : (p.tasks.zip (Layout.places p)).length = p.tasks.length := by
      rw [← List.length_map (f := Prod.fst), hfst]
    have hnames : (p.tasks.zip (Layout.places p)).map (fun t => t.1.name) =
        p.tasks.map ParsedTask.name := by
      rw [← hfst, List.map_map, hfst]
      rfl
    obtain ⟨hvalid, hids⟩ := TaskGraph.ids_of_addTasks hadded rfl
    obtain ⟨tasks', new, hadded', hsound, hnone, -, -⟩ :=
      TaskGraph.addTasks_eq _ TaskGraph.sound_empty hvalid (by rw [hnames]; exact hd.names)
    cases hadded.symm.trans hadded'
    refine ⟨fun t ht => ?_, tasks, hadded, hsound, hnone, ?_, h⟩
    · rw [← hfst] at ht
      obtain ⟨pair, hpair, rfl⟩ := List.mem_map.1 ht
      exact hvalid pair hpair
    · rw [hids, hlength]
      exact congrArg Source.idsTo (Nat.zero_add _)

/-- What the adding of tasks and edges has shown, once there is a graph. -/
theorem Declared.of_graph (hd : p.Declared) {g : TaskGraph} (h : p.graph = .ok g) :
    (∀ t ∈ p.tasks, Identifier.isValid t.name = true) ∧ g.WellFormed ∧
      g.nodes.map Node.id = p.tasks.map ParsedTask.id ∧ g.edges.map Edge.named = p.edges := by
  obtain ⟨hvalid, tasks, -, hsound, hnone, hids, hjoined⟩ := hd.exists_of_graph h
  obtain ⟨hg, hedges, hcontent⟩ := hsound.edges_of_addEdges hjoined
  have hsame := congrArg (List.map Node.Content.id) hcontent
  rw [List.map_map, List.map_map] at hsame
  refine ⟨hvalid, hg.wellFormed, ?_, ?_⟩
  · rw [hd.ids]
    exact hsame.trans hids
  · rw [hedges, hnone]
    rfl

theorem Declared.isValid_iff (hd : p.Declared) {t : ParsedTask} (ht : t ∈ p.tasks) :
    Identifier.isValid t.name = true ↔ Identifier.isKeyword t.name = false := by
  rw [Identifier.isValid, hd.words t ht, Bool.true_and, Bool.not_eq_true']

/-- A parsed pipeline has a graph exactly if no name is a keyword and no way along its
edges comes back to where it began, be it by a single edge.  The graph has the tasks and
the edges of the pipeline, in their order. -/
theorem graph_ok_iff {text : String} (h : Source.parse text = .ok p) :
    ((∃ g, p.graph = .ok g) ↔ (∀ t ∈ p.tasks, Identifier.isKeyword t.name = false) ∧
      ∀ a, ¬TransGen (Leads p.edges) a a) ∧
    ∀ g, p.graph = .ok g →
      g.WellFormed ∧ List.Forall₂ Rebuilds p.tasks g.nodes ∧ g.edges.map Edge.named = p.edges := by
  have hd := Source.declared_of_parse h
  have hacyclic : ∀ {g : TaskGraph}, p.graph = .ok g → ∀ a, ¬TransGen (Leads p.edges) a a := by
    intro g hg
    obtain ⟨-, hw, -, hedges⟩ := hd.of_graph hg
    rw [← hedges]
    exact hw.acyclic_by_names fun e he => he
  refine ⟨⟨fun ⟨g, hg⟩ => ⟨fun t ht => ?_, hacyclic hg⟩, fun ⟨hwords, hway⟩ => ?_⟩,
    fun g hg => ?_⟩
  · exact (hd.isValid_iff ht).1 ((hd.of_graph hg).1 t ht)
  · obtain ⟨g, hg, -⟩ := graph_eq hd.names (fun t ht => (hd.isValid_iff ht).2 (hwords t ht)) hd.ends
      hd.once hway
    exact ⟨g, hg⟩
  · obtain ⟨hvalid, hw, hids, hedges⟩ := hd.of_graph hg
    obtain ⟨g', hg', -, hcarries, -⟩ := graph_eq hd.names hvalid hd.ends hd.once (hacyclic hg)
    cases hg.symm.trans hg'
    have hsame : List.Forall₂ (fun (n : Node) (t : ParsedTask) => n.id = t.id) g.nodes p.tasks :=
      List.forall₂_map_left_iff.1 (List.forall₂_map_right_iff.1 (hids ▸ List.forall₂_refl _))
    exact ⟨hw, (forall₂_and hcarries hsame.flip).imp fun t n hboth => ⟨hboth.1, hboth.2⟩, hedges⟩

/-- Arrows above the tasks they join, and one of them twice. -/
def forwardSource : String :=
  "price -> total -> rest\nprice [type=http url=<https://x/y>]\nrest [type=any]\n" ++
    "total [type=\"sum\" values=<[$(price)]>]\nprice -> rest; price -> total"

def forwardPipeline : ParsedSource :=
  { tasks := [⟨"node_1", "price", .http, Dict.ofList [("url", .verbatim "https://x/y")], 2⟩,
      ⟨"node_2", "rest", .any, Dict.empty, 3⟩,
      ⟨"node_3", "total", .sum, Dict.ofList [("values", .verbatim "[$(price)]")], 4⟩]
    edges := [⟨"price", "total"⟩, ⟨"total", "rest"⟩, ⟨"price", "rest"⟩] }

theorem graph_ok_iff_forwardSource :
    Source.parse forwardSource = .ok forwardPipeline ∧ (∀ a, ¬TransGen (Leads forwardPipeline.edges) a a) ∧
      ∃ g, forwardPipeline.graph = .ok g ∧ g.WellFormed ∧
        List.Forall₂ Rebuilds forwardPipeline.tasks g.nodes ∧
        g.edges.map Edge.named = forwardPipeline.edges := by
  have hparse : Source.parse forwardSource = .ok forwardPipeline := by decide +kernel
  have hsome : forwardPipeline.graph.toOption.isSome = true := by decide +kernel
  obtain ⟨hiff, hgraph⟩ := graph_ok_iff hparse
  cases hg : forwardPipeline.graph with
  | error error =>
    rw [hg] at hsome
    cases hsome
  | ok g => exact ⟨hparse, (hiff.1 ⟨g, hg⟩).2, g, rfl, hgraph g hg⟩

end ParsedSource
end JobPipeline
