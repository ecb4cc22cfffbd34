import JobPipeline.Proofs.Graph.Names

/-
Adding tasks and edges keeps a graph well-formed.

An edit changes a task only by the events it sends, so each proof has the same
two halves: what the edit does to the tasks, the edges and the index, put as one
equation without the events, and that well-formedness survives this change.
Numbers are carried along, since a new task or edge is only new because the
counters have passed every id in use.
-/
namespace JobPipeline

open Relation (ReflTransGen TransGen)

namespace TaskGraph

/-- A graph that is well-formed, with counters that have passed its ids. -/
structure Sound (g : TaskGraph) : Prop where
  wellFormed : g.WellFormed
  numbered : g.Numbered

theorem sound_empty : empty.Sound := ⟨wellFormed_empty, numbered_empty⟩

end TaskGraph

/-! ## A new edge -/

namespace Node

theorem receives_name {id : String} {event : NodeEvent} {n : Node}
    (h : (n.send event).1.name = n.name) : (n.receives id event).name = n.name := by
  rw [receives]
  split
  · exact h
  · rfl

/-- A task after an edge was put between two tasks. -/
def joined (n s t : Node) : Node :=
  (n.receives s.id (.addOutgoing t.name)).receives t.id (.addIncoming s.name)

@[simp] theorem joined_id (n s t : Node) : (n.joined s t).id = n.id := by
  rw [joined, receives_id, receives_id]

@[simp] theorem joined_name (n s t : Node) : (n.joined s t).name = n.name := by
  have hout : ∀ m : Node, (m.send (.addOutgoing t.name)).1.name = m.name := by
    intro m
    simp only [send]
    split <;> rfl
  have hin : ∀ m : Node, (m.send (.addIncoming s.name)).1.name = m.name := by
    intro m
    simp only [send]
    split <;> rfl
  rw [joined, receives_name (hin _), receives_name (hout _)]

theorem joined_incoming {n s t : Node} (h : n.id = t.id → s.name ∉ n.incoming) :
    (n.joined s t).incoming = if t.id = n.id then n.incoming ++ [s.name] else n.incoming := by
  have hout : (n.receives s.id (.addOutgoing t.name)).incoming = n.incoming := by
    simp only [receives, send]
    split
    · split <;> rfl
    · rfl
  by_cases ht : n.id = t.id
  · rw [joined, receives, receives_id, if_pos ht, if_pos ht.symm, send, hout, if_neg (h ht)]
  · rw [joined, receives, receives_id, if_neg ht, if_neg (fun e => ht e.symm), hout]

theorem joined_outgoing {n s t : Node} (h : n.id = s.id → t.name ∉ n.outgoing) :
    (n.joined s t).outgoing = if s.id = n.id then n.outgoing ++ [t.name] else n.outgoing := by
  have hin : ∀ m : Node, (m.receives t.id (.addIncoming s.name)).outgoing = m.outgoing := by
    intro m
    simp only [receives, send]
    split
    · split <;> rfl
    · rfl
  by_cases hs : n.id = s.id
  · rw [joined, hin, receives, if_pos hs, if_pos hs.symm, send, if_neg (h hs)]
  · rw [joined, hin, receives, if_neg hs, if_neg (fun e => hs e.symm)]

end Node

namespace TaskGraph

/-- The edge that is put between two tasks. -/
def newEdge (g : TaskGraph) (s t : Node) : Edge :=
  ⟨"edge_" ++ toString (g.edgesAdded + 1), s.id, t.id, s.name, t.name⟩

/-- Tasks that are there are told one after another, and nothing fails. -/
theorem sendAll_eq {messages : List (String × NodeEvent)} {g : TaskGraph}
    (h : (g.nodes.map Node.id).Nodup) (hthere : ∀ m ∈ messages, m.1 ∈ g.nodes.map Node.id) :
    sendAll messages g = (.ok (), { g with
      nodes := g.nodes.map fun n => messages.foldl (fun n m => n.receives m.1 m.2) n }) := by
  induction messages generalizing g with
  | nil => simp [sendAll]
  | cons message rest ih =>
    obtain ⟨id, event⟩ := message
    have hids := ids_map (Node.receives_id id event) g.nodes
    obtain ⟨_, hsend⟩ := send_of_mem h (hthere _ List.mem_cons_self) event
    rw [sendAll, hsend]
    show sendAll rest { g with nodes := g.nodes.map (Node.receives id event) } = _
    rw [ih (hids.symm ▸ h) fun m hm => hids.symm ▸ hthere m (List.mem_cons_of_mem _ hm), List.map_map]
    rfl

theorem insertEdge_eq {g : TaskGraph} (h : (g.nodes.map Node.id).Nodup) {s t : Node}
    (hs : s ∈ g.nodes) (ht : t ∈ g.nodes) :
    g.insertEdge s t = (.ok (g.newEdge s t).id, { g with
      nodes := g.nodes.map (Node.joined · s t)
      edges := g.edges ++ [g.newEdge s t]
      edgesAdded := g.edgesAdded + 1 }) := by
  let messages := [(s.id, NodeEvent.addOutgoing t.name), (t.id, .addIncoming s.name)]
  let g' : TaskGraph := { g with edges := g.edges ++ [g.newEdge s t], edgesAdded := g.edgesAdded + 1 }
  have hthere : ∀ m ∈ messages, m.1 ∈ g'.nodes.map Node.id := by
    simp only [messages, List.forall_mem_cons]
    exact ⟨List.mem_map_of_mem hs, List.mem_map_of_mem ht, nofun⟩
  show ((sendAll messages g').1.map fun _ => (g.newEdge s t).id, (sendAll messages g').2) = _
  rw [sendAll_eq (g := g') h hthere]
  rfl

section NewEdge

variable {g : TaskGraph} {s t : Node}

theorem Numbered.newEdge_unused (h : g.Numbered) : (g.newEdge s t).id ∉ g.edges.map Edge.id := by
  intro hold
  obtain ⟨e, he, hid⟩ := List.mem_map.1 hold
  obtain ⟨k, hk, hek⟩ := h.edges e he
  have := toString_inj_of_append (hek.symm.trans hid)
  omega

/-- Tasks keep their ids and names when they are told of an edge. -/
theorem exists_joined_iff (nodes : List Node) (s t : Node) {p : String → String → Prop} :
    (∃ n ∈ nodes.map (Node.joined · s t), p n.id n.name) ↔ ∃ n ∈ nodes, p n.id n.name := by
  constructor
  · rintro ⟨n', hn', hp⟩
    obtain ⟨n, hn, rfl⟩ := List.mem_map.1 hn'
    rw [Node.joined_id, Node.joined_name] at hp
    exact ⟨n, hn, hp⟩
  · rintro ⟨n, hn, hp⟩
    refine ⟨n.joined s t, List.mem_map_of_mem hn, ?_⟩
    rw [Node.joined_id, Node.joined_name]
    exact hp

theorem WellFormed.sources_newEdge (h : g.WellFormed) (hs : s ∈ g.nodes) :
    ∀ e ∈ g.edges ++ [g.newEdge s t], ∃ n ∈ g.nodes, n.id = e.source ∧ n.name = e.sourceName :=
  List.forall_mem_append.2 ⟨h.sources, List.forall_mem_singleton.2 ⟨s, hs, rfl, rfl⟩⟩

theorem WellFormed.targets_newEdge (h : g.WellFormed) (ht : t ∈ g.nodes) :
    ∀ e ∈ g.edges ++ [g.newEdge s t], ∃ n ∈ g.nodes, n.id = e.target ∧ n.name = e.targetName :=
  List.forall_mem_append.2 ⟨h.targets, List.forall_mem_singleton.2 ⟨t, ht, rfl, rfl⟩⟩

theorem WellFormed.noRepeat_newEdge (h : g.WellFormed) (hnew : ∀ e ∈ g.edges, e.source = s.id → e.target ≠ t.id) :
    ((g.edges ++ [g.newEdge s t]).map fun e => (e.source, e.target)).Nodup := by
  rw [List.map_append, List.nodup_append']
  refine ⟨h.noRepeat, List.nodup_singleton _, ?_⟩
  rw [List.map_singleton, List.disjoint_singleton]
  intro hold
  obtain ⟨e, he, hends⟩ := List.mem_map.1 hold
  exact hnew e he (Prod.mk.inj hends).1 (Prod.mk.inj hends).2

/-- What the tasks are told comes to listing the edges again. -/
theorem WellFormed.incoming_joined (h : g.WellFormed) (hs : s ∈ g.nodes)
    (hnew : ∀ e ∈ g.edges, e.source = s.id → e.target ≠ t.id) {n : Node} (hn : n ∈ g.nodes) :
    (n.joined s t).incoming = sourceNames (g.edges ++ [g.newEdge s t]) n.id := by
  have hunlisted : n.id = t.id → s.name ∉ n.incoming := by
    intro hid hin
    rw [h.incoming n hn] at hin
    obtain ⟨e, he, htarget, hname⟩ := mem_sourceNames.1 hin
    exact hnew e he ((h.sourceName_eq_iff he hs).1 hname) (htarget.trans hid)
  rw [Node.joined_incoming hunlisted, h.incoming n hn]
  exact (sourceNames_append_singleton g.edges (g.newEdge s t) n.id).symm

theorem WellFormed.outgoing_joined (h : g.WellFormed) (ht : t ∈ g.nodes)
    (hnew : ∀ e ∈ g.edges, e.source = s.id → e.target ≠ t.id) {n : Node} (hn : n ∈ g.nodes) :
    (n.joined s t).outgoing = targetNames (g.edges ++ [g.newEdge s t]) n.id := by
  have hunlisted : n.id = s.id → t.name ∉ n.outgoing := by
    intro hid hout
    rw [h.outgoing n hn] at hout
    obtain ⟨e, he, hsource, hname⟩ := mem_targetNames.1 hout
    exact hnew e he (hsource.trans hid) ((h.targetName_eq_iff he ht).1 hname)
  rw [Node.joined_outgoing hunlisted, h.outgoing n hn]
  exact (targetNames_append_singleton g.edges (g.newEdge s t) n.id).symm

/-- Putting an edge between two tasks keeps a graph well-formed when they have none yet and
there is no way back. -/
theorem WellFormed.joined (h : g.WellFormed) (hnumbered : g.Numbered) (hs : s ∈ g.nodes) (ht : t ∈ g.nodes)
    (hnew : ∀ e ∈ g.edges, e.source = s.id → e.target ≠ t.id)
    (hback : ¬ReflTransGen (Feeds g.edges) t.id s.id) :
    WellFormed { g with
      nodes := g.nodes.map (Node.joined · s t)
      edges := g.edges ++ [g.newEdge s t]
      edgesAdded := g.edgesAdded + 1 } where
  nodeIds := by
    rw [ids_map (fun n => n.joined_id s t)]
    exact h.nodeIds
  edgeIds := by
    rw [List.map_append, List.map_singleton]
    exact List.nodup_append'.2 ⟨h.edgeIds, List.nodup_singleton _, List.disjoint_singleton.2 hnumbered.newEdge_unused⟩
  names := by
    have hnames : (g.nodes.map (Node.joined · s t)).map Node.name = g.nodes.map Node.name := by
      rw [List.map_map]
      exact List.map_congr_left fun n _ => Node.joined_name ..
    rw [hnames]
    exact h.names
  validNames := by
    refine List.forall_mem_map.2 fun n hn => ?_
    rw [Node.joined_name]
    exact h.validNames n hn
  indexed name id :=
    (h.indexed name id).trans (exists_joined_iff g.nodes s t (p := fun i m => m = name ∧ i = id)).symm
  sources e he :=
    (exists_joined_iff g.nodes s t (p := fun i m => i = e.source ∧ m = e.sourceName)).2 (h.sources_newEdge hs e he)
  targets e he :=
    (exists_joined_iff g.nodes s t (p := fun i m => i = e.target ∧ m = e.targetName)).2 (h.targets_newEdge ht e he)
  noLoop := by
    refine List.forall_mem_append.2 ⟨h.noLoop, List.forall_mem_singleton.2 fun heq => ?_⟩
    have hsame : s.id = t.id := heq
    rw [hsame] at hback
    exact hback .refl
  noRepeat := h.noRepeat_newEdge hnew
  acyclic := h.acyclic.append_singleton hback
  incoming := by
    refine List.forall_mem_map.2 fun n hn => ?_
    rw [Node.joined_id]
    exact h.incoming_joined hs hnew hn
  outgoing := by
    refine List.forall_mem_map.2 fun n hn => ?_
    rw [Node.joined_id]
    exact h.outgoing_joined ht hnew hn

theorem Numbered.joined (h : g.Numbered) (s t : Node) :
    Numbered { g with
      nodes := g.nodes.map (Node.joined · s t)
      edges := g.edges ++ [g.newEdge s t]
      edgesAdded := g.edgesAdded + 1 } where
  nodes := by
    refine List.forall_mem_map.2 fun n hn => ?_
    rw [Node.joined_id]
    exact h.nodes n hn
  edges := by
    refine List.forall_mem_append.2 ⟨fun e he => ?_, List.forall_mem_singleton.2 ⟨_, Nat.le_refl _, rfl⟩⟩
    obtain ⟨k, hk, hid⟩ := h.edges e he
    exact ⟨k, Nat.le_succ_of_le hk, hid⟩

/-- Putting an edge between two tasks is sound when they have none yet and there
is no way back. -/
theorem Sound.insertEdge {g : TaskGraph} (h : g.Sound) {s t : Node} (hs : s ∈ g.nodes)
    (ht : t ∈ g.nodes) (hnew : ∀ e ∈ g.edges, e.source = s.id → e.target ≠ t.id)
    (hback : ¬ReflTransGen (Feeds g.edges) t.id s.id) : (g.insertEdge s t).2.Sound := by
  rw [insertEdge_eq h.wellFormed.nodeIds hs ht]
  exact ⟨h.wellFormed.joined h.numbered hs ht hnew hback, h.numbered.joined s t⟩

end NewEdge

/-! ## A new task -/

theorem isValid_of_nameError? {g : TaskGraph} {name : String} {owner : Option String}
    (h : g.nameError? name owner = none) : Identifier.isValid name = true := by
  rw [nameError?] at h
  cases hvalid : Identifier.isValid name with
  | true => rfl
  | false => simp [hvalid] at h

/-- A name that can be given belongs to nobody, or to the task that asks. -/
theorem holder_of_nameError? {g : TaskGraph} {name holder : String} {owner : Option String}
    (h : g.nameError? name owner = none) (hheld : g.idOf? name = some holder) :
    owner = some holder := by
  rw [nameError?, isValid_of_nameError? h, hheld] at h
  by_contra hne
  simp [hne] at h

/-- The task that is added, and the graph with it before any edge is put. -/
def newNode (g : TaskGraph) (kind : TaskKind) (name : String) (position : Position) : Node :=
  Node.fresh ("node_" ++ toString (g.nodesAdded + 1)) name kind position

def grown (g : TaskGraph) (kind : TaskKind) (name : String) (position : Position) : TaskGraph :=
  { g with
    nodes := g.nodes ++ [g.newNode kind name position]
    index := g.index.insert name (g.newNode kind name position).id
    nodesAdded := g.nodesAdded + 1 }

section Grown

variable {g : TaskGraph} {kind : TaskKind} {name : String} {position : Position}

theorem newNode_id_ne (h : ∀ n ∈ g.nodes, ∃ k, k ≤ g.nodesAdded ∧ n.id = "node_" ++ toString k)
    {n : Node} (hn : n ∈ g.nodes) : n.id ≠ (g.newNode kind name position).id := by
  intro heq
  obtain ⟨k, hk, hid⟩ := h n hn
  have := toString_inj_of_append (hid.symm.trans heq)
  omega

theorem Sound.newNode_id_ne (h : g.Sound) {n : Node} (hn : n ∈ g.nodes) :
    n.id ≠ (g.newNode kind name position).id := TaskGraph.newNode_id_ne h.numbered.nodes hn

theorem Sound.newNode_not_source (h : g.Sound) {e : Edge} (he : e ∈ g.edges) :
    e.source ≠ (g.newNode kind name position).id := by
  obtain ⟨n, hn, hid, _⟩ := h.wellFormed.sources e he
  rw [← hid]
  exact h.newNode_id_ne hn

theorem Sound.newNode_not_target (h : g.Sound) {e : Edge} (he : e ∈ g.edges) :
    e.target ≠ (g.newNode kind name position).id := by
  obtain ⟨n, hn, hid, _⟩ := h.wellFormed.targets e he
  rw [← hid]
  exact h.newNode_id_ne hn

theorem mem_grown {n : Node} :
    n ∈ (g.grown kind name position).nodes ↔ n ∈ g.nodes ∨ n = g.newNode kind name position := by
  show n ∈ g.nodes ++ [_] ↔ _
  rw [List.mem_append, List.mem_singleton]

theorem WellFormed.unused_of_nameError? (h : g.WellFormed) (hname : g.nameError? name none = none)
    {n : Node} (hn : n ∈ g.nodes) : n.name ≠ name := by
  intro heq
  have hheld : g.idOf? name = some n.id := (h.indexed name n.id).2 ⟨n, hn, heq, rfl⟩
  have hnobody := holder_of_nameError? hname hheld
  cases hnobody

/-- The new name leads to the new task, the others to where they led. -/
theorem WellFormed.indexed_grown (h : g.WellFormed) (hunused : ∀ n ∈ g.nodes, n.name ≠ name)
    (other id : String) :
    (g.grown kind name position).idOf? other = some id ↔
      ∃ n ∈ (g.grown kind name position).nodes, n.name = other ∧ n.id = id := by
  show (g.index.insert name _).find? other = some id ↔ _
  rw [Dict.find?_insert]
  by_cases hother : name = other
  · rw [if_pos hother]
    constructor
    · intro hid
      cases hid
      exact ⟨_, mem_grown.2 (.inr rfl), hother, rfl⟩
    · rintro ⟨n, hn, hnname, rfl⟩
      rcases mem_grown.1 hn with hn | rfl
      · exact absurd (hnname.trans hother.symm) (hunused n hn)
      · rfl
  · rw [if_neg hother]
    refine (h.indexed other id).trans ⟨?_, ?_⟩
    · rintro ⟨n, hn, hnname, hid⟩
      exact ⟨n, mem_grown.2 (.inl hn), hnname, hid⟩
    · rintro ⟨n, hn, hnname, hid⟩
      rcases mem_grown.1 hn with hn | rfl
      · exact ⟨n, hn, hnname, hid⟩
      · exact absurd hnname hother

theorem Sound.wellFormed_grown (h : g.Sound) (hname : g.nameError? name none = none) :
    (g.grown kind name position).WellFormed where
  nodeIds := by
    show ((g.nodes ++ [_]).map Node.id).Nodup
    rw [List.map_append, List.map_singleton]
    refine List.nodup_append'.2 ⟨h.wellFormed.nodeIds, List.nodup_singleton _, List.disjoint_singleton.2 ?_⟩
    intro hold
    obtain ⟨n, hn, hid⟩ := List.mem_map.1 hold
    exact h.newNode_id_ne hn hid
  edgeIds := h.wellFormed.edgeIds
  names := by
    show ((g.nodes ++ [_]).map Node.name).Nodup
    rw [List.map_append, List.map_singleton]
    refine List.nodup_append'.2 ⟨h.wellFormed.names, List.nodup_singleton _, List.disjoint_singleton.2 ?_⟩
    intro hold
    obtain ⟨n, hn, hsame⟩ := List.mem_map.1 hold
    exact h.wellFormed.unused_of_nameError? hname hn hsame
  validNames := List.forall_mem_append.2
    ⟨h.wellFormed.validNames, List.forall_mem_singleton.2 (isValid_of_nameError? hname)⟩
  indexed := h.wellFormed.indexed_grown fun _ hn => h.wellFormed.unused_of_nameError? hname hn
  sources e he := by
    obtain ⟨n, hn, hends⟩ := h.wellFormed.sources e he
    exact ⟨n, mem_grown.2 (.inl hn), hends⟩
  targets e he := by
    obtain ⟨n, hn, hends⟩ := h.wellFormed.targets e he
    exact ⟨n, mem_grown.2 (.inl hn), hends⟩
  noLoop := h.wellFormed.noLoop
  noRepeat := h.wellFormed.noRepeat
  acyclic := h.wellFormed.acyclic
  incoming := by
    refine List.forall_mem_append.2 ⟨h.wellFormed.incoming, List.forall_mem_singleton.2 ?_⟩
    refine (List.eq_nil_iff_forall_not_mem.2 fun other hin => ?_).symm
    obtain ⟨e, he, htarget, _⟩ := mem_sourceNames.1 hin
    exact h.newNode_not_target he htarget
  outgoing := by
    refine List.forall_mem_append.2 ⟨h.wellFormed.outgoing, List.forall_mem_singleton.2 ?_⟩
    refine (List.eq_nil_iff_forall_not_mem.2 fun other hout => ?_).symm
    obtain ⟨e, he, hsource, _⟩ := mem_targetNames.1 hout
    exact h.newNode_not_source he hsource

theorem Numbered.grown (h : g.Numbered) : (g.grown kind name position).Numbered where
  nodes := by
    refine List.forall_mem_append.2 ⟨fun n hn => ?_, List.forall_mem_singleton.2 ⟨_, Nat.le_refl _, rfl⟩⟩
    obtain ⟨k, hk, hid⟩ := h.nodes n hn
    exact ⟨k, Nat.le_succ_of_le hk, hid⟩
  edges := h.edges

theorem Sound.grown (h : g.Sound) (hname : g.nameError? name none = none) :
    (g.grown kind name position).Sound := ⟨h.wellFormed_grown hname, h.numbered.grown⟩

end Grown

theorem Sound.addNamed {g : TaskGraph} (h : g.Sound) (kind : TaskKind) (name : String)
    (position : Position) (attachment : Option Attachment) :
    (g.addNamed kind name position attachment).2.Sound := by
  rw [TaskGraph.addNamed]
  cases hname : g.nameError? name none with
  | some error => exact h
  | none =>
    have hgrown : (g.grown kind name position).Sound := h.grown hname
    have hnode : g.newNode kind name position ∈ (g.grown kind name position).nodes :=
      List.mem_append_right _ (List.mem_singleton.2 rfl)
    cases attachment with
    | none => exact hgrown
    | some a =>
      cases hneighbour : g.node? a.neighbour with
      | none => simpa [hneighbour] using h
      | some neighbour =>
        have hold : neighbour ∈ g.nodes := mem_of_node? hneighbour
        have hmem : neighbour ∈ (g.grown kind name position).nodes := List.mem_append_left _ hold
        cases hrole : a.role with
        | source =>
          have hsound : ((g.grown kind name position).insertEdge
              (g.newNode kind name position) neighbour).2.Sound := by
            refine hgrown.insertEdge hnode hmem
              (fun e he hsource => absurd hsource (h.newNode_not_source he)) ?_
            intro hway
            rcases ReflTransGen.cases_tail hway with heq | ⟨b, _, e, he, _, htarget⟩
            · exact h.newNode_id_ne hold heq.symm
            · exact h.newNode_not_target he htarget
          simp only [hneighbour, hrole]
          exact hsound
        | target =>
          have hsound : ((g.grown kind name position).insertEdge neighbour
              (g.newNode kind name position)).2.Sound := by
            refine hgrown.insertEdge hmem hnode
              (fun e he _ htarget => h.newNode_not_target he htarget) ?_
            intro hway
            rcases ReflTransGen.cases_head hway with heq | ⟨b, ⟨e, he, hsource, _⟩, _⟩
            · exact h.newNode_id_ne hold heq.symm
            · exact h.newNode_not_source he hsource
          simp only [hneighbour, hrole]
          exact hsound

/-! ## Connecting and disconnecting -/

/-- A connection is refused, or an edge is put between two different tasks that had none, with no
way back. -/
theorem connect_cases (g : TaskGraph) (source target : String) :
    (∃ error, g.connect source target = (.error error, g)) ∨
      ∃ s t, g.node? source = some s ∧ g.node? target = some t ∧ source ≠ target ∧
        ¬Feeds g.edges source target ∧ ¬ReflTransGen (Feeds g.edges) target source ∧
        g.connect source target = g.insertEdge s t := by
  rw [connect]
  cases hs : g.node? source with
  | none => exact .inl ⟨_, rfl⟩
  | some s =>
    cases ht : g.node? target with
    | none => exact .inl ⟨_, rfl⟩
    | some t =>
      dsimp only
      split
      · exact .inl ⟨_, rfl⟩
      · next hloop =>
        split
        · exact .inl ⟨_, rfl⟩
        · next hrepeat =>
          split
          · exact .inl ⟨_, rfl⟩
          · next hback =>
            rw [reaches_iff] at hback
            exact .inr ⟨s, t, rfl, rfl, hloop, by simpa [Feeds] using hrepeat, hback, rfl⟩

theorem Sound.connect {g : TaskGraph} (h : g.Sound) (source target : String) :
    (g.connect source target).2.Sound := by
  rcases connect_cases g source target with ⟨error, hrefused⟩ | ⟨s, t, hs, ht, -, hnew, hback, hput⟩
  · rw [hrefused]
    exact h
  · rw [hput]
    refine h.insertEdge (mem_of_node? hs) (mem_of_node? ht) (fun e he hsource htarget => ?_) ?_
    · exact hnew ⟨e, he, hsource.trans (id_of_node? hs), htarget.trans (id_of_node? ht)⟩
    · rwa [id_of_node? hs, id_of_node? ht]

theorem Sound.connectNamed {g : TaskGraph} (h : g.Sound) (source target : String) :
    (g.connectNamed source target).2.Sound := by
  rw [TaskGraph.connectNamed]
  cases hs : g.idOf? source with
  | none => exact h
  | some s =>
    cases ht : g.idOf? target with
    | none => exact h
    | some t => exact h.connect s t

end TaskGraph
end JobPipeline
