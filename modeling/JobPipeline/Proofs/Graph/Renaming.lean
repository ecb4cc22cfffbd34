import JobPipeline.Proofs.Graph.Removing

/-
Renaming a task keeps a graph well-formed.

The old name occurs in the task, the index, the ends of its edges and the lists
of its neighbours.  Names tell tasks apart, so replacing the old name wherever it
stands in a list renames this one task and no other.
-/
namespace JobPipeline

/-- A name with the old one replaced. -/
def followName (old new name : String) : String := if name = old then new else name

namespace Node

@[simp] theorem retargetTokens_links (old new : String) (n : Node) :
    (TaskGraph.retargetTokens old new n).links = n.links := rfl

/-- A task of a graph after a rename, apart from its fields. -/
def renamed (n : Node) (id old new : String) : Node :=
  let m := n.receives id (.setName new)
  if m.id = id then m else (m.send (.renameReference old new)).1

variable (n : Node) (id old new : String)

@[simp] theorem renamed_id : (n.renamed id old new).id = n.id := by
  rw [renamed]
  split
  · exact receives_id ..
  · rw [send_id, receives_id]

theorem renamed_of_eq {n : Node} {id : String} (h : n.id = id) :
    n.renamed id old new = (n.send (.setName new)).1 := by
  rw [renamed, receives_id, if_pos h, receives, if_pos h]

theorem renamed_of_ne {n : Node} {id : String} (h : n.id ≠ id) :
    n.renamed id old new = (n.send (.renameReference old new)).1 := by
  rw [renamed, receives_id, if_neg h, receives, if_neg h]

theorem renamed_name : (n.renamed id old new).name = if n.id = id then new else n.name := by
  by_cases h : n.id = id
  · rw [renamed_of_eq old new h, if_pos h]
    rfl
  · rw [renamed_of_ne old new h, if_neg h]
    rfl

theorem map_followName_of_not_mem {names : List String} {old : String} (h : old ∉ names)
    (new : String) : names.map (followName old new) = names := by
  have hsame : ∀ name ∈ names, followName old new name = name := fun name hname =>
    if_neg fun (heq : name = old) => h (heq ▸ hname)
  rw [List.map_congr_left hsame, List.map_id']

theorem renamed_incoming {n : Node} {id old : String} (new : String)
    (h : n.id = id → old ∉ n.incoming) :
    (n.renamed id old new).incoming = n.incoming.map (followName old new) := by
  by_cases hid : n.id = id
  · rw [renamed_of_eq old new hid, map_followName_of_not_mem (h hid)]
    rfl
  · rw [renamed_of_ne old new hid]
    rfl

theorem renamed_outgoing {n : Node} {id old : String} (new : String)
    (h : n.id = id → old ∉ n.outgoing) :
    (n.renamed id old new).outgoing = n.outgoing.map (followName old new) := by
  by_cases hid : n.id = id
  · rw [renamed_of_eq old new hid, map_followName_of_not_mem (h hid)]
    rfl
  · rw [renamed_of_ne old new hid]
    rfl

end Node

namespace TaskGraph

/-- A graph after a rename that leaves tokens alone. -/
def renamed (g : TaskGraph) (node : Node) (new : String) : TaskGraph :=
  { g with
    nodes := g.nodes.map (Node.renamed · node.id node.name new)
    edges := g.edges.map fun e => e.renamed node.id new
    index := (g.index.erase node.name).insert new node.id }

section Renamed

variable {g : TaskGraph} {node : Node} {new : String}

theorem WellFormed.renamed_sourceName (h : g.WellFormed) (hnode : node ∈ g.nodes) {e : Edge}
    (he : e ∈ g.edges) :
    (e.renamed node.id new).sourceName = followName node.name new e.sourceName := by
  by_cases hs : e.source = node.id
  · rw [followName, if_pos ((h.sourceName_eq_iff he hnode).2 hs)]
    exact if_pos hs
  · rw [followName, if_neg fun heq => hs ((h.sourceName_eq_iff he hnode).1 heq)]
    exact if_neg hs

theorem WellFormed.renamed_targetName (h : g.WellFormed) (hnode : node ∈ g.nodes) {e : Edge}
    (he : e ∈ g.edges) :
    (e.renamed node.id new).targetName = followName node.name new e.targetName := by
  by_cases ht : e.target = node.id
  · rw [followName, if_pos ((h.targetName_eq_iff he hnode).2 ht)]
    exact if_pos ht
  · rw [followName, if_neg fun heq => ht ((h.targetName_eq_iff he hnode).1 heq)]
    exact if_neg ht

theorem mem_renamed {n' : Node} :
    n' ∈ (g.renamed node new).nodes ↔ ∃ n ∈ g.nodes, n.renamed node.id node.name new = n' := List.mem_map

theorem ids_renamed (g : TaskGraph) (node : Node) (new : String) :
    (g.renamed node new).nodes.map Node.id = g.nodes.map Node.id :=
  ids_map (fun n => n.renamed_id node.id node.name new) g.nodes

/-! ### Names and index -/

theorem WellFormed.names_renamed (h : g.WellFormed) (hunused : ∀ n ∈ g.nodes, n.name ≠ new) :
    ((g.renamed node new).nodes.map Node.name).Nodup := by
  show ((g.nodes.map (Node.renamed · node.id node.name new)).map Node.name).Nodup
  rw [List.map_map]
  refine List.Nodup.map_on (fun m hm n hn heq => ?_) h.names.of_map
  simp only [Function.comp_apply, Node.renamed_name] at heq
  by_cases hmid : m.id = node.id
  · by_cases hnid : n.id = node.id
    · exact eq_of_id_eq h.nodeIds hm hn (hmid.trans hnid.symm)
    · rw [if_pos hmid, if_neg hnid] at heq
      exact absurd heq.symm (hunused n hn)
  · by_cases hnid : n.id = node.id
    · rw [if_neg hmid, if_pos hnid] at heq
      exact absurd heq (hunused m hm)
    · rw [if_neg hmid, if_neg hnid] at heq
      exact eq_of_name_eq h.names hm hn heq

/-- The new name belongs to the task alone. -/
theorem exists_renamed_new (hnode : node ∈ g.nodes) (hunused : ∀ n ∈ g.nodes, n.name ≠ new) {id : String} :
    (∃ n ∈ (g.renamed node new).nodes, n.name = new ∧ n.id = id) ↔ node.id = id := by
  constructor
  · rintro ⟨_, hn', hname, rfl⟩
    obtain ⟨n, hn, rfl⟩ := mem_renamed.1 hn'
    rw [Node.renamed_name] at hname
    by_cases hnid : n.id = node.id
    · rw [Node.renamed_id, hnid]
    · rw [if_neg hnid] at hname
      exact absurd hname (hunused n hn)
  · rintro rfl
    refine ⟨_, mem_renamed.2 ⟨node, hnode, rfl⟩, ?_, Node.renamed_id ..⟩
    rw [Node.renamed_name, if_pos rfl]

/-- The old name belongs to nobody. -/
theorem WellFormed.not_exists_renamed_old (h : g.WellFormed) (hnode : node ∈ g.nodes) (hnew : new ≠ node.name)
    {id : String} : ¬∃ n ∈ (g.renamed node new).nodes, n.name = node.name ∧ n.id = id := by
  rintro ⟨_, hn', hname, -⟩
  obtain ⟨n, hn, rfl⟩ := mem_renamed.1 hn'
  rw [Node.renamed_name] at hname
  by_cases hnid : n.id = node.id
  · rw [if_pos hnid] at hname
    exact hnew hname
  · -- The task is the only one of its name, so another id has another name.
    rw [if_neg hnid] at hname
    exact hnid (congrArg Node.id (eq_of_name_eq h.names hn hnode hname))

/-- Every other name belongs to whom it belonged. -/
theorem WellFormed.exists_renamed_other (h : g.WellFormed) (hnode : node ∈ g.nodes) {name id : String}
    (hnew : new ≠ name) (hold : node.name ≠ name) :
    (∃ n ∈ (g.renamed node new).nodes, n.name = name ∧ n.id = id) ↔
      ∃ n ∈ g.nodes, n.name = name ∧ n.id = id := by
  constructor
  · rintro ⟨_, hn', hname, rfl⟩
    obtain ⟨n, hn, rfl⟩ := mem_renamed.1 hn'
    rw [Node.renamed_name] at hname
    by_cases hnid : n.id = node.id
    · rw [if_pos hnid] at hname
      exact absurd hname hnew
    · rw [if_neg hnid] at hname
      exact ⟨n, hn, hname, (Node.renamed_id ..).symm⟩
  · rintro ⟨n, hn, hname, rfl⟩
    have hnid : n.id ≠ node.id := by
      intro hnid
      rw [← eq_of_id_eq h.nodeIds hn hnode hnid] at hold
      exact hold hname
    refine ⟨_, mem_renamed.2 ⟨n, hn, rfl⟩, ?_, Node.renamed_id ..⟩
    rw [Node.renamed_name, if_neg hnid, hname]

theorem WellFormed.indexed_renamed (h : g.WellFormed) (hnode : node ∈ g.nodes)
    (hunused : ∀ n ∈ g.nodes, n.name ≠ new) (name id : String) :
    (g.renamed node new).idOf? name = some id ↔
      ∃ n ∈ (g.renamed node new).nodes, n.name = name ∧ n.id = id := by
  show ((g.index.erase node.name).insert new node.id).find? name = some id ↔ _
  rw [Dict.find?_insert, Dict.find?_erase]
  by_cases hnew : new = name
  · subst hnew
    rw [if_pos rfl, exists_renamed_new hnode hunused]
    exact Option.some_inj
  · rw [if_neg hnew]
    by_cases hold : node.name = name
    · subst hold
      rw [if_pos rfl]
      exact iff_of_false nofun (h.not_exists_renamed_old hnode hnew)
    · rw [if_neg hold, h.exists_renamed_other hnode hnew hold]
      exact h.indexed name id

/-! ### Lists of neighbours -/

theorem WellFormed.incoming_renamed (h : g.WellFormed) (hnode : node ∈ g.nodes) {n : Node} (hn : n ∈ g.nodes) :
    (n.renamed node.id node.name new).incoming = sourceNames (g.renamed node new).edges n.id := by
  have hself : n.id = node.id → node.name ∉ n.incoming := by
    intro hid hin
    rw [h.incoming n hn] at hin
    obtain ⟨e, he, htarget, hname⟩ := mem_sourceNames.1 hin
    exact h.noLoop e he (((h.sourceName_eq_iff he hnode).1 hname).trans (htarget.trans hid).symm)
  rw [Node.renamed_incoming new hself, h.incoming n hn]
  exact (sourceNames_map (f := fun e => e.renamed node.id new) (fun e => rfl)
    fun e he _ => h.renamed_sourceName hnode he).symm

theorem WellFormed.outgoing_renamed (h : g.WellFormed) (hnode : node ∈ g.nodes) {n : Node} (hn : n ∈ g.nodes) :
    (n.renamed node.id node.name new).outgoing = targetNames (g.renamed node new).edges n.id := by
  have hself : n.id = node.id → node.name ∉ n.outgoing := by
    intro hid hout
    rw [h.outgoing n hn] at hout
    obtain ⟨e, he, hsource, hname⟩ := mem_targetNames.1 hout
    exact h.noLoop e he ((hsource.trans hid).trans ((h.targetName_eq_iff he hnode).1 hname).symm)
  rw [Node.renamed_outgoing new hself, h.outgoing n hn]
  exact (targetNames_map (f := fun e => e.renamed node.id new) (fun e => rfl)
    fun e he _ => h.renamed_targetName hnode he).symm

/-! ### The graph as a whole -/

theorem WellFormed.renamed (h : g.WellFormed) (hnode : node ∈ g.nodes) (hvalid : Identifier.isValid new = true)
    (hunused : ∀ n ∈ g.nodes, n.name ≠ new) : (g.renamed node new).WellFormed where
  nodeIds := by
    rw [ids_renamed]
    exact h.nodeIds
  edgeIds := by
    rw [TaskGraph.renamed, List.map_map]
    exact h.edgeIds
  names := h.names_renamed hunused
  validNames := by
    refine List.forall_mem_map.2 fun n hn => ?_
    rw [Node.renamed_name]
    split
    · exact hvalid
    · exact h.validNames n hn
  indexed := h.indexed_renamed hnode hunused
  sources := by
    refine List.forall_mem_map.2 fun e he => ?_
    obtain ⟨n, hn, hid, hname⟩ := h.sources e he
    refine ⟨_, mem_renamed.2 ⟨n, hn, rfl⟩, (Node.renamed_id ..).trans hid, ?_⟩
    rw [Node.renamed_name, hid, hname]
    rfl
  targets := by
    refine List.forall_mem_map.2 fun e he => ?_
    obtain ⟨n, hn, hid, hname⟩ := h.targets e he
    refine ⟨_, mem_renamed.2 ⟨n, hn, rfl⟩, (Node.renamed_id ..).trans hid, ?_⟩
    rw [Node.renamed_name, hid, hname]
    rfl
  noLoop := List.forall_mem_map.2 h.noLoop
  noRepeat := by
    rw [TaskGraph.renamed, List.map_map]
    exact h.noRepeat
  acyclic := by
    show Acyclic (g.edges.map fun e => e.renamed node.id new)
    rw [Acyclic, feeds_map (f := fun e => e.renamed node.id new) fun e => ⟨rfl, rfl⟩]
    exact h.acyclic
  incoming := by
    refine List.forall_mem_map.2 fun n hn => ?_
    rw [Node.renamed_id]
    exact h.incoming_renamed hnode hn
  outgoing := by
    refine List.forall_mem_map.2 fun n hn => ?_
    rw [Node.renamed_id]
    exact h.outgoing_renamed hnode hn

theorem Sound.renamed (h : g.Sound) (hnode : node ∈ g.nodes)
    (hvalid : Identifier.isValid new = true) (hunused : ∀ n ∈ g.nodes, n.name ≠ new) :
    (g.renamed node new).Sound := by
  have hedges : (g.renamed node new).edges.map Edge.id = g.edges.map Edge.id := by
    rw [TaskGraph.renamed, List.map_map]
    rfl
  exact ⟨h.wellFormed.renamed hnode hvalid hunused,
    h.numbered.congr (ids_renamed g node new) hedges (Nat.le_refl _) (Nat.le_refl _)⟩

end Renamed

theorem Sound.congr {g g' : TaskGraph} (h : g.Sound)
    (hnodes : g'.nodes.map Node.links = g.nodes.map Node.links) (hedges : g'.edges = g.edges)
    (hindex : g'.index = g.index) (hnodesAdded : g'.nodesAdded = g.nodesAdded)
    (hedgesAdded : g'.edgesAdded = g.edgesAdded) : g'.Sound := by
  refine ⟨h.wellFormed.congr hnodes hedges hindex, h.numbered.congr ?_ (by rw [hedges])
    (Nat.le_of_eq hnodesAdded.symm) (Nat.le_of_eq hedgesAdded.symm)⟩
  have hids := congrArg (List.map Node.Links.id) hnodes
  rwa [List.map_map, List.map_map] at hids

theorem Sound.rename {g : TaskGraph} (h : g.Sound) (id new : String) (policy : RenamePolicy) :
    (g.rename id new policy).2.Sound := by
  rw [TaskGraph.rename]
  cases hfound : g.node? id with
  | none => exact h
  | some node =>
    have hnode : node ∈ g.nodes := mem_of_node? hfound
    have hid : node.id = id := id_of_node? hfound
    subst hid
    by_cases hsame : node.name = new
    · simpa [hsame] using h
    · cases herror : g.nameError? new (some node.id) with
      | some error => simpa [hsame, herror] using h
      | none =>
        have hunused : ∀ n ∈ g.nodes, n.name ≠ new := by
          intro n hn hname
          have hheld : g.idOf? new = some n.id := (h.wellFormed.indexed new n.id).2 ⟨n, hn, hname, rfl⟩
          have howner : some node.id = some n.id := holder_of_nameError? herror hheld
          have := eq_of_id_eq h.wellFormed.nodeIds hnode hn (Option.some.inj howner)
          exact hsame (this ▸ hname)
        have hrenamed : (g.renamed node new).Sound :=
          h.renamed hnode (isValid_of_nameError? herror) hunused
        have hnotified : g.notify node.id (.setName new) =
            { g with nodes := g.nodes.map (Node.receives node.id (.setName new)) } :=
          notify_eq h.wellFormed.nodeIds ..
        simp only [if_neg hsame, hnotified, List.map_map]
        cases policy with
        | keepTokens => exact hrenamed
        | retargetTokens =>
          refine hrenamed.congr ?_ rfl rfl rfl rfl
          rw [TaskGraph.renamed, List.map_map, List.map_map]
          exact List.map_congr_left fun n _ => Node.retargetTokens_links ..

end TaskGraph
end JobPipeline
