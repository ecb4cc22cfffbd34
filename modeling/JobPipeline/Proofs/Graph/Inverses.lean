import JobPipeline.Proofs.Graph.Deleting

/-
Edits that undo each other.

The lists of a task are read off the edges, and the index off the names, so a well-formed graph
is known by its edges and by its tasks apart from their lists.  Edits keep a graph well-formed.
An edit that takes back another one therefore only has to give back the edges in their order and
what is left of the tasks; that every list has its order again follows.  What does not come back are the
counters, and the result of a task that was told of a new name or of a new source.
-/
namespace JobPipeline

namespace Node

/-- A task without the lists of its neighbours. -/
def unlisted (n : Node) : Node := { n with incoming := [], outgoing := [] }

/-- A task with the neighbours that the edges give it. -/
def relisted (edges : List Edge) (n : Node) : Node :=
  { n with incoming := sourceNames edges n.id, outgoing := targetNames edges n.id }

/-- The task with the given id loses its result. -/
def cleared (id : String) (n : Node) : Node := if n.id = id then { n with runResult := none } else n

theorem links_cleared (id : String) (n : Node) : (n.cleared id).links = n.links := by
  rw [cleared]
  split <;> rfl

theorem unlisted_cleared (id : String) (n : Node) : (n.cleared id).unlisted = n.unlisted.cleared id := by
  rw [cleared, cleared]
  show _ = if n.id = id then _ else _
  split <;> rfl

section Receives

variable (n : Node) (id name : String)

theorem unlisted_addOutgoing : (n.receives id (.addOutgoing name)).unlisted = n.unlisted := by
  rw [receives, send]
  split
  · split <;> rfl
  · rfl

theorem unlisted_removeOutgoing : (n.receives id (.removeOutgoing name)).unlisted = n.unlisted := by
  rw [receives, send]
  split <;> rfl

/-- A task that learns of a source loses its result, unless it knew of it. -/
theorem cleared_addIncoming :
    (n.receives id (.addIncoming name)).unlisted.cleared id = n.unlisted.cleared id := by
  rw [receives, send]
  split
  · next hid =>
    split
    · rfl
    · rw [cleared, cleared]
      show (if n.id = id then _ else _) = if n.id = id then _ else _
      rw [if_pos hid, if_pos hid]
      rfl
  · rfl

theorem mem_incoming_addIncoming (h : n.id = id) : name ∈ (n.receives id (.addIncoming name)).incoming := by
  rw [receives, if_pos h, send]
  split
  · next hmem => exact hmem
  · exact List.mem_append_right _ (List.mem_singleton.2 rfl)

variable {n id name}

theorem unlisted_removeIncoming (h : n.id = id → name ∈ n.incoming) :
    (n.receives id (.removeIncoming name)).unlisted = n.unlisted.cleared id := by
  rw [receives, cleared]
  show _ = if n.id = id then _ else _
  by_cases hid : n.id = id
  · rw [if_pos hid, if_pos hid, send, if_pos (h hid)]
    rfl
  · rw [if_neg hid, if_neg hid]

end Receives

theorem cleared_of_ne {id : String} {n : Node} (h : n.id ≠ id) : n.cleared id = n := if_neg h

theorem cleared_joined (n s t : Node) : (n.joined s t).unlisted.cleared t.id = n.unlisted.cleared t.id := by
  rw [joined, cleared_addIncoming, unlisted_addOutgoing]

theorem unlisted_joined_of_ne {n s t : Node} (h : n.id ≠ t.id) : (n.joined s t).unlisted = n.unlisted := by
  have hne : (n.joined s t).unlisted.id ≠ t.id := by
    show (n.joined s t).id ≠ t.id
    rwa [joined_id]
  have hne' : n.unlisted.id ≠ t.id := h
  rw [← cleared_of_ne hne, cleared_joined, cleared_of_ne hne']

/-- An edge that is put and taken away again. -/
theorem unlisted_parted_joined (n s t : Node) {e : Edge} (hsource : e.source = s.id) (htarget : e.target = t.id)
    (hname : e.sourceName = s.name) : ((n.joined s t).parted e).unlisted = n.unlisted.cleared t.id := by
  have hlisted : ((n.joined s t).receives s.id (.removeOutgoing e.targetName)).id = t.id →
      s.name ∈ ((n.joined s t).receives s.id (.removeOutgoing e.targetName)).incoming := by
    rw [receives_id, joined_id, receives_removeOutgoing_incoming, joined]
    intro hid
    exact mem_incoming_addIncoming _ _ _ (by rw [receives_id, hid])
  rw [parted, hsource, htarget, hname, unlisted_removeIncoming hlisted, unlisted_removeOutgoing, cleared_joined]

theorem unlisted_bereft (n gone : Node) (lost : List Edge) :
    (n.bereft gone lost).unlisted =
      if leads lost gone.id n.id then { n.unlisted with runResult := none } else n.unlisted := by
  rw [bereft]
  split <;> rfl

end Node

/-- Only the last name counts. -/
theorem Edge.renamed_renamed (e : Edge) (id name name' : String) :
    (e.renamed id name).renamed id name' = e.renamed id name' := by
  have hsource : (if e.source = id then name' else if e.source = id then name else e.sourceName) =
      if e.source = id then name' else e.sourceName := ite_congr rfl (fun _ => rfl) fun hs => if_neg hs
  have htarget : (if e.target = id then name' else if e.target = id then name else e.targetName) =
      if e.target = id then name' else e.targetName := ite_congr rfl (fun _ => rfl) fun ht => if_neg ht
  exact congrArg₂ (Edge.mk e.id e.source e.target) hsource htarget

namespace TaskGraph

variable {g g' : TaskGraph}

/-! ## What a graph is known by -/

theorem WellFormed.relisted_unlisted (h : g.WellFormed) :
    (g.nodes.map Node.unlisted).map (Node.relisted g.edges) = g.nodes := by
  have hsame : ∀ n ∈ g.nodes, (Node.relisted g.edges ∘ Node.unlisted) n = n := by
    intro n hn
    show { n with incoming := sourceNames g.edges n.id, outgoing := targetNames g.edges n.id } = n
    rw [← h.incoming n hn, ← h.outgoing n hn]
  rw [List.map_map, List.map_congr_left hsame, List.map_id']

/-- Two graphs with the same edges and the same tasks are the same, apart from what they have counted. -/
theorem WellFormed.eq_of_unlisted (h : g.WellFormed) (h' : g'.WellFormed)
    (hnodes : g'.nodes.map Node.unlisted = g.nodes.map Node.unlisted) (hedges : g'.edges = g.edges) :
    g' = { g with nodesAdded := g'.nodesAdded, edgesAdded := g'.edgesAdded } := by
  have hsame : g'.nodes = g.nodes := by
    rw [← h'.relisted_unlisted, hnodes, hedges, h.relisted_unlisted]
  have hindex : g'.index = g.index := by
    refine Dict.eq_of_find? fun name => Option.ext fun id => ?_
    refine (h'.indexed name id).trans ?_
    rw [hsame]
    exact (h.indexed name id).symm
  rw [← hsame, ← hedges, ← hindex]

/-- A graph in which one task has lost its result. -/
def withoutResult (g : TaskGraph) (id : String) : TaskGraph := { g with nodes := g.nodes.map (Node.cleared id) }

theorem WellFormed.withoutResult (h : g.WellFormed) (id : String) : (g.withoutResult id).WellFormed := by
  refine h.congr ?_ rfl rfl
  rw [TaskGraph.withoutResult, List.map_map]
  exact List.map_congr_left fun n _ => n.links_cleared id

theorem unlisted_withoutResult (g : TaskGraph) (id : String) :
    (g.withoutResult id).nodes.map Node.unlisted = g.nodes.map fun n => n.unlisted.cleared id := by
  rw [withoutResult, List.map_map]
  exact List.map_congr_left fun n _ => n.unlisted_cleared id

/-! ## Connecting and disconnecting -/

theorem filter_append_singleton {α : Type} {keep : α → Bool} {l : List α} {a : α} (hl : ∀ b ∈ l, keep b = true)
    (ha : keep a = false) : (l ++ [a]).filter keep = l := by
  rw [List.filter_append, List.filter_eq_self.2 hl, List.filter_cons_of_neg (Bool.eq_false_iff.1 ha),
    List.filter_nil, List.append_nil]

/-- No edge has the id that the next one gets. -/
theorem Sound.newEdge_id_ne (h : g.Sound) {e : Edge} (he : e ∈ g.edges) (s t : Node) :
    e.id ≠ (g.newEdge s t).id := by
  intro heq
  obtain ⟨k, hk, hid⟩ := h.numbered.edges e he
  have := toString_inj_of_append (hid.symm.trans heq)
  omega

theorem Sound.disconnect_insertEdge (h : g.Sound) {s t : Node} (hs : s ∈ g.nodes) (ht : t ∈ g.nodes)
    (hput : (g.insertEdge s t).2.Sound) :
    (g.insertEdge s t).2.disconnect (g.newEdge s t).id =
      (.ok (g.newEdge s t), { g.withoutResult t.id with edgesAdded := g.edgesAdded + 1 }) := by
  have hremoved := hput.disconnect (g.newEdge s t).id
  rw [insertEdge_eq h.wellFormed.nodeIds hs ht] at hput hremoved ⊢
  have hedge : g.newEdge s t ∈ g.edges ++ [g.newEdge s t] := List.mem_append_right _ (List.mem_singleton.2 rfl)
  have hdisconnect := disconnect_eq hput.wellFormed hedge
  rw [hdisconnect] at hremoved
  refine hdisconnect.trans (congrArg (Prod.mk _) ?_)
  refine (h.wellFormed.withoutResult t.id).eq_of_unlisted hremoved.wellFormed ?_ ?_
  · rw [unlisted_withoutResult]
    show ((g.nodes.map (Node.joined · s t)).map (Node.parted · (g.newEdge s t))).map Node.unlisted = _
    rw [List.map_map, List.map_map]
    exact List.map_congr_left fun n _ => n.unlisted_parted_joined s t rfl rfl rfl
  · show (g.edges ++ [g.newEdge s t]).filter (fun e => e.id ≠ (g.newEdge s t).id) = g.edges
    have hkept : ∀ e ∈ g.edges, decide (e.id ≠ (g.newEdge s t).id) = true := fun e he =>
      decide_eq_true (h.newEdge_id_ne he s t)
    exact filter_append_singleton hkept (decide_eq_false fun hne => hne rfl)

/-- What is put between two tasks can be taken away again. -/
theorem Sound.disconnect_connect (h : g.Sound) {source target id : String}
    (hok : (g.connect source target).1 = .ok id) :
    ∃ edge, (g.connect source target).2.disconnect id =
      (.ok edge, { g.withoutResult target with edgesAdded := g.edgesAdded + 1 }) := by
  have hconnected : (g.connect source target).2.Sound := h.connect source target
  rcases connect_cases g source target with ⟨error, hrefused⟩ | ⟨s, t, hs, ht, -, -, -, hput⟩
  · rw [hrefused] at hok
    cases hok
  · have hinserted := insertEdge_eq h.wellFormed.nodeIds (mem_of_node? hs) (mem_of_node? ht)
    rw [hput] at hok hconnected ⊢
    have hid : (g.newEdge s t).id = id := by
      rw [hinserted] at hok
      exact Except.ok.inj hok
    rw [← hid, ← id_of_node? ht]
    exact ⟨_, h.disconnect_insertEdge (mem_of_node? hs) (mem_of_node? ht) hconnected⟩

/-! ## Renaming there and back -/

section Renamed

variable {node : Node} {new : String}

/-- A rename that succeeds gives a name that the task could be given. -/
theorem nameError?_of_rename {policy : RenamePolicy} (hnode : g.node? node.id = some node) (hne : node.name ≠ new)
    (hok : (g.rename node.id new policy).1 = .ok ()) : g.nameError? new (some node.id) = none := by
  rw [rename, hnode] at hok
  cases herror : g.nameError? new (some node.id) with
  | none => rfl
  | some error => simp [hne, herror] at hok

theorem WellFormed.rename_eq (h : g.WellFormed) (hnode : node ∈ g.nodes) (hne : node.name ≠ new)
    (herror : g.nameError? new (some node.id) = none) :
    g.rename node.id new .keepTokens = (.ok (), g.renamed node new) := by
  have hnotified : g.notify node.id (.setName new) =
      { g with nodes := g.nodes.map (Node.receives node.id (.setName new)) } :=
    notify_eq h.nodeIds ..
  rw [rename, node?_eq_some h.nodeIds hnode]
  simp only [if_neg hne, herror, hnotified, List.map_map]
  rfl

/-- The name that a task had is free for it once it has another one. -/
theorem WellFormed.nameError?_renamed (h : g.WellFormed) (hnode : node ∈ g.nodes) (hne : node.name ≠ new) :
    (g.renamed node new).nameError? node.name (some node.id) = none := by
  have hfree : (g.renamed node new).idOf? node.name = none := by
    show ((g.index.erase node.name).insert new node.id).find? node.name = none
    rw [Dict.find?_insert_of_ne _ (Ne.symm hne), Dict.find?_erase, if_pos rfl]
  rw [nameError?, h.validNames node hnode, hfree]
  rfl

theorem WellFormed.unlisted_renamed_renamed (h : g.WellFormed) (hnode : node ∈ g.nodes) {n : Node}
    (hn : n ∈ g.nodes) :
    ((n.renamed node.id node.name new).renamed node.id new node.name).unlisted = n.unlisted.cleared node.id := by
  have hunlisted : n.unlisted.cleared node.id = if n.id = node.id then _ else _ := rfl
  rw [hunlisted]
  by_cases hid : n.id = node.id
  · rw [if_pos hid, Node.renamed_of_eq _ _ (by rw [Node.renamed_id, hid]), Node.renamed_of_eq _ _ hid,
      ← eq_of_id_eq h.nodeIds hn hnode hid]
    rfl
  · rw [if_neg hid, Node.renamed_of_ne _ _ (by rwa [Node.renamed_id]), Node.renamed_of_ne _ _ hid]
    rfl

/-- The edges carry the name that the task has. -/
theorem WellFormed.renamed_name (h : g.WellFormed) (hnode : node ∈ g.nodes) {e : Edge} (he : e ∈ g.edges) :
    e.renamed node.id node.name = e := by
  have hsource : (if e.source = node.id then node.name else e.sourceName) = e.sourceName := by
    split
    · next hs => exact ((h.sourceName_eq_iff he hnode).2 hs).symm
    · rfl
  have htarget : (if e.target = node.id then node.name else e.targetName) = e.targetName := by
    split
    · next ht => exact ((h.targetName_eq_iff he hnode).2 ht).symm
    · rfl
  rw [Edge.renamed, hsource, htarget]

/-- A task that was renamed can have its old name again. -/
theorem Sound.rename_rename (h : g.Sound) (hnode : g.node? node.id = some node) (hne : node.name ≠ new)
    (hok : (g.rename node.id new .keepTokens).1 = .ok ()) :
    (g.rename node.id new .keepTokens).2.rename node.id node.name .keepTokens =
      (.ok (), g.withoutResult node.id) := by
  have hw := h.wellFormed
  have hmem := mem_of_node? hnode
  have hthere := hw.rename_eq hmem hne (nameError?_of_rename hnode hne hok)
  have hrenamed := h.rename node.id new .keepTokens
  rw [hthere] at hrenamed ⊢
  -- The task as it is under its new name.
  obtain ⟨held, hheld, hid, hname⟩ : ∃ m ∈ (g.renamed node new).nodes, m.id = node.id ∧ m.name = new :=
    ⟨_, List.mem_map_of_mem hmem, Node.renamed_id .., by rw [Node.renamed_name, if_pos rfl]⟩
  have herror := hw.nameError?_renamed hmem hne
  rw [← hid] at herror
  have hback := hrenamed.wellFormed.rename_eq hheld (fun heq => hne (heq.symm.trans hname)) herror
  have hsound := hrenamed.rename held.id node.name .keepTokens
  rw [hback] at hsound
  rw [← hid, hback]
  refine congrArg (Prod.mk _) ?_
  refine (hw.withoutResult held.id).eq_of_unlisted hsound.wellFormed ?_ ?_
  · rw [unlisted_withoutResult, TaskGraph.renamed, TaskGraph.renamed, List.map_map, List.map_map, hid, hname]
    exact List.map_congr_left fun n hn => hw.unlisted_renamed_renamed hmem hn
  · rw [TaskGraph.renamed, TaskGraph.renamed]
    show (g.edges.map fun e => e.renamed node.id new).map (fun e => e.renamed held.id node.name) = g.edges
    have hsame : ∀ e ∈ g.edges, (e.renamed node.id new).renamed node.id node.name = e := fun e he =>
      (e.renamed_renamed ..).trans (hw.renamed_name hmem he)
    rw [List.map_map, hid]
    exact (List.map_congr_left hsame).trans (List.map_id' g.edges)

end Renamed

/-! ## Adding and deleting -/

/-- What is left when a task was added, with or without an edge, and deleted again: the counters
have moved on, and the task that it was the source of has lost its result. -/
def passed (g : TaskGraph) : Option Attachment → TaskGraph
  | none => { g with nodesAdded := g.nodesAdded + 1 }
  | some ⟨neighbour, role⟩ =>
    let rest := match role with
      | .source => g.withoutResult neighbour
      | .target => g
    { rest with nodesAdded := g.nodesAdded + 1, edgesAdded := g.edgesAdded + 1 }

theorem withoutResult_of_forall_ne {id : String} (h : ∀ n ∈ g.nodes, n.id ≠ id) : g.withoutResult id = g := by
  have hsame : ∀ n ∈ g.nodes, n.cleared id = n := fun n hn => Node.cleared_of_ne (h n hn)
  rw [withoutResult, List.map_congr_left hsame, List.map_id']

section Fresh

variable {new : Node} (h : g.WellFormed) (hfresh : ∀ n ∈ g.nodes, n.id ≠ new.id)

include hfresh in
theorem filter_ne_fresh : (g.nodes ++ [new]).filter (fun n => n.id ≠ new.id) = g.nodes :=
  filter_append_singleton (fun n hn => decide_eq_true (hfresh n hn)) (decide_eq_false fun hne => hne rfl)

include h hfresh

theorem WellFormed.not_touches_fresh {e : Edge} (he : e ∈ g.edges) : (!e.touches new.id) = true := by
  obtain ⟨s, hs, hsid, -⟩ := h.sources e he
  obtain ⟨t, ht, htid, -⟩ := h.targets e he
  rw [Edge.touches, ← hsid, ← htid, decide_eq_false (hfresh s hs), decide_eq_false (hfresh t ht)]
  rfl

theorem WellFormed.leads_fresh (id : String) : leads g.edges new.id id = false := by
  rw [Bool.eq_false_iff]
  intro hleads
  obtain ⟨e, he, hs, -⟩ := leads_iff.1 hleads
  obtain ⟨n, hn, hid, -⟩ := h.sources e he
  exact hfresh n hn (hid.trans hs)

/-- The only edge that can begin at a new task is the one that was put with it. -/
theorem WellFormed.leads_newEdge (s t : Node) (id : String) :
    leads (g.edges ++ [g.newEdge s t]) new.id id = (s.id = new.id && t.id = id) := by
  rw [leads, List.any_append, ← leads, h.leads_fresh hfresh, List.any_cons, List.any_nil, Bool.or_false,
    Bool.false_or]
  rfl

/-- The other tasks, when a new one was put next to one of them and taken away again. -/
theorem WellFormed.unlisted_bereft_joined {n s t gone : Node} (hn : n ∈ g.nodes) (hgone : gone.id = new.id)
    (hends : s.id = new.id ∨ t.id = new.id) :
    ((n.joined s t).bereft gone (g.edges ++ [g.newEdge s t])).unlisted = n.unlisted.cleared t.id := by
  rw [Node.unlisted_bereft, hgone, h.leads_newEdge hfresh, Node.joined_id]
  by_cases ht : t.id = n.id
  · have hs : s.id = new.id := hends.resolve_right (ht ▸ hfresh n hn)
    have hid : (n.joined s t).unlisted.id = t.id := (n.joined_id s t).trans ht.symm
    rw [decide_eq_true hs, decide_eq_true ht, Bool.and_true, if_pos rfl, ← Node.cleared_joined, Node.cleared,
      if_pos hid]
  · have hne : n.unlisted.id ≠ t.id := Ne.symm ht
    rw [decide_eq_false ht, Bool.and_false, if_neg Bool.false_ne_true, Node.unlisted_joined_of_ne (Ne.symm ht),
      Node.cleared_of_ne hne]

end Fresh

section Added

variable {kind : TaskKind} {name : String} {position : Position}

theorem newNode_mem_grown : g.newNode kind name position ∈ (g.grown kind name position).nodes :=
  List.mem_append_right _ (List.mem_singleton.2 rfl)

theorem Sound.delete_grown (h : g.Sound) (hname : g.nameError? name none = none) :
    ∃ told, (g.grown kind name position).delete (g.newNode kind name position).id =
      (.ok told, { g with nodesAdded := g.nodesAdded + 1 }) := by
  have hgrown : (g.grown kind name position).Sound := h.grown hname
  have hfresh : ∀ n ∈ g.nodes, n.id ≠ (g.newNode kind name position).id := fun n => h.newNode_id_ne
  have hsound := hgrown.delete (g.newNode kind name position).id
  rw [delete_eq hgrown.wellFormed newNode_mem_grown] at hsound ⊢
  refine ⟨_, congrArg (Prod.mk _) ?_⟩
  refine h.wellFormed.eq_of_unlisted hsound.wellFormed ?_ ?_
  · show (((g.nodes ++ [g.newNode kind name position]).filter _).map _).map _ = _
    rw [filter_ne_fresh hfresh, List.map_map]
    refine List.map_congr_left fun n _ => ?_
    show (n.bereft (g.newNode kind name position) g.edges).unlisted = _
    rw [Node.unlisted_bereft, h.wellFormed.leads_fresh hfresh, if_neg Bool.false_ne_true]
  · exact List.filter_eq_self.2 fun e he => h.wellFormed.not_touches_fresh hfresh he

/-- A new task that was put next to another one can be deleted again. -/
theorem Sound.delete_insertEdge (h : g.Sound) {s t : Node} (hs : s ∈ (g.grown kind name position).nodes)
    (ht : t ∈ (g.grown kind name position).nodes) (hgrown : (g.grown kind name position).Sound)
    (hput : ((g.grown kind name position).insertEdge s t).2.Sound)
    (hends : s.id = (g.newNode kind name position).id ∨ t.id = (g.newNode kind name position).id) :
    ∃ told, ((g.grown kind name position).insertEdge s t).2.delete (g.newNode kind name position).id =
      (.ok told, { g.withoutResult t.id with
        nodesAdded := g.nodesAdded + 1
        edgesAdded := g.edgesAdded + 1 }) := by
  have hfresh : ∀ n ∈ g.nodes, n.id ≠ (g.newNode kind name position).id := fun n => h.newNode_id_ne
  have hsound := hput.delete (g.newNode kind name position).id
  rw [insertEdge_eq hgrown.wellFormed.nodeIds hs ht] at hput hsound ⊢
  have hid : ((g.newNode kind name position).joined s t).id = (g.newNode kind name position).id :=
    Node.joined_id ..
  have hdelete := delete_eq hput.wellFormed (List.mem_map_of_mem (f := (Node.joined · s t)) newNode_mem_grown)
  rw [hid] at hdelete
  rw [hdelete] at hsound ⊢
  refine ⟨_, congrArg (Prod.mk _) ?_⟩
  refine (h.wellFormed.withoutResult t.id).eq_of_unlisted hsound.wellFormed ?_ ?_
  · rw [unlisted_withoutResult]
    show ((((g.nodes ++ [g.newNode kind name position]).map (Node.joined · s t)).filter
      fun (n : Node) => n.id ≠ (g.newNode kind name position).id).map _).map _ = _
    have hkeep : ((fun n : Node => decide (n.id ≠ (g.newNode kind name position).id)) ∘ (Node.joined · s t)) =
        fun (n : Node) => n.id ≠ (g.newNode kind name position).id :=
      funext fun n => by rw [Function.comp_apply, Node.joined_id]
    rw [List.filter_map, hkeep, filter_ne_fresh hfresh, List.map_map, List.map_map]
    exact List.map_congr_left fun n hn => h.wellFormed.unlisted_bereft_joined hfresh hn hid hends
  · show (g.edges ++ [g.newEdge s t]).filter (fun e => !e.touches (g.newNode kind name position).id) = g.edges
    refine filter_append_singleton (fun e he => h.wellFormed.not_touches_fresh hfresh he) ?_
    show (!(s.id = (g.newNode kind name position).id || t.id = (g.newNode kind name position).id)) = false
    rw [Bool.not_eq_false', Bool.or_eq_true, decide_eq_true_eq, decide_eq_true_eq]
    exact hends

theorem Sound.delete_addNamed (h : g.Sound) {attachment : Option Attachment} {id : String}
    (hok : (g.addNamed kind name position attachment).1 = .ok id) :
    ∃ told, (g.addNamed kind name position attachment).2.delete id = (.ok told, g.passed attachment) := by
  have hadded := h.addNamed kind name position attachment
  rw [TaskGraph.addNamed] at hok hadded ⊢
  cases hname : g.nameError? name none with
  | some error =>
    rw [hname] at hok
    cases hok
  | none =>
    simp only [hname] at hok hadded ⊢
    have hgrown : (g.grown kind name position).Sound := h.grown hname
    cases attachment with
    | none =>
      cases hok
      exact h.delete_grown hname
    | some attachment =>
      obtain ⟨neighbour, role⟩ := attachment
      cases hneighbour : g.node? neighbour with
      | none => simp [hneighbour] at hok
      | some m =>
        have hm : m ∈ (g.grown kind name position).nodes := List.mem_append_left _ (mem_of_node? hneighbour)
        have hmid : m.id = neighbour := id_of_node? hneighbour
        have hanswer {answer : Except JobError String}
            (hmap : (answer.map fun _ => (g.newNode kind name position).id) = .ok id) :
            id = (g.newNode kind name position).id := by
          cases answer with
          | error error => cases hmap
          | ok edge => exact (Except.ok.inj hmap).symm
        simp only [hneighbour] at hok hadded ⊢
        cases role with
        | source =>
          rw [hanswer hok, passed, ← hmid]
          exact h.delete_insertEdge newNode_mem_grown hm hgrown hadded (.inl rfl)
        | target =>
          obtain ⟨told, hdelete⟩ := h.delete_insertEdge hm newNode_mem_grown hgrown hadded (.inr rfl)
          rw [withoutResult_of_forall_ne fun n => h.newNode_id_ne] at hdelete
          rw [hanswer hok]
          exact ⟨told, hdelete⟩

end Added

/-- What a rename, a connection and an added task do is undone by the rename back, by
disconnecting and by deleting, lists and all, but for the counters and for the result of the task
whose name or sources were changed. -/
theorem Worked.inverses (h : g.Worked) :
    (∀ (id new : String) (node : Node), g.node? id = some node → node.name ≠ new →
      (g.rename id new .keepTokens).1 = .ok () →
      (g.rename id new .keepTokens).2.rename id node.name .keepTokens = (.ok (), g.withoutResult id)) ∧
    (∀ source target id : String, (g.connect source target).1 = .ok id →
      ∃ edge, (g.connect source target).2.disconnect id =
        (.ok edge, { g.withoutResult target with edgesAdded := g.edgesAdded + 1 })) ∧
    (∀ (kind : TaskKind) (position : Position) (attachment : Option Attachment) (id : String),
      (g.add kind position attachment).1 = .ok id →
      ∃ told, (g.add kind position attachment).2.delete id = (.ok told, g.passed attachment)) ∧
    ∀ (kind : TaskKind) (name : String) (position : Position) (attachment : Option Attachment) (id : String),
      (g.addNamed kind name position attachment).1 = .ok id →
      ∃ told, (g.addNamed kind name position attachment).2.delete id = (.ok told, g.passed attachment) := by
  refine ⟨fun id new node hnode hne hok => ?_, fun source target id => h.sound.disconnect_connect,
    fun kind position attachment id => h.sound.delete_addNamed,
    fun kind name position attachment id => h.sound.delete_addNamed⟩
  have hid := id_of_node? hnode
  subst hid
  exact h.sound.rename_rename hnode hne hok

/-- The last task of the row has a result, and loses it on the way. -/
theorem Worked.inverses_settledRow :
    ∃ total, settledRow.node? "node_3" = some total ∧ total.runResult.isSome = true ∧
      (settledRow.rename "node_3" "amount" .keepTokens).2.rename "node_3" total.name .keepTokens =
        (.ok (), settledRow.withoutResult "node_3") ∧
      (∃ edge, (settledRow.connect "node_1" "node_3").2.disconnect "edge_3" =
        (.ok edge, { settledRow.withoutResult "node_3" with edgesAdded := 3 })) ∧
      (∃ told, (settledRow.add .any .origin (some ⟨"node_3", .source⟩)).2.delete "node_4" =
        (.ok told, settledRow.passed (some ⟨"node_3", .source⟩))) ∧
      ∃ told, (settledRow.addNamed .any "guard" .origin none).2.delete "node_4" =
        (.ok told, settledRow.passed none) := by
  have hworked : settledRow.Worked := by
    unfold settledRow
    refine .send ?_ "node_3" fun n => n.advance_links _
    refine .send ?_ "node_3" fun n => n.advance_links _
    refine .send ?_ "node_3" fun n => n.advance_links _
    exact Worked.empty.afterAll _
  have hlast : ((settledRow.node? "node_3").map fun n => (n.name, n.runResult.isSome)) = some ("total", true) := by
    decide +kernel
  obtain ⟨total, htotal, hpair⟩ := Option.map_eq_some_iff.1 hlast
  obtain ⟨hname, hsettled⟩ := Prod.mk.inj hpair
  obtain ⟨hrename, hconnect, hadd, haddNamed⟩ := hworked.inverses
  refine ⟨total, htotal, hsettled, hrename "node_3" "amount" total htotal ?_ ?_,
    hconnect "node_1" "node_3" "edge_3" ?_, hadd .any .origin (some ⟨"node_3", .source⟩) "node_4" ?_,
    haddNamed .any "guard" .origin none "node_4" ?_⟩
  · rw [hname]
    decide
  · decide +kernel
  · decide +kernel
  · decide +kernel
  · decide +kernel

end TaskGraph
end JobPipeline
