import JobPipeline.Proofs.Graph.Connecting
import JobPipeline.Proofs.Matching

/-
Removing edges and tasks keeps a graph well-formed.

Both edits leave a part of the graph, and what they tell the tasks that stay has
to come to the same as listing the remaining edges again.  `Sound.restrict` says
so once.  A deletion sends one message for every edge of the task that goes;
`Node.bereft` is what they come to.
-/
namespace JobPipeline

namespace TaskGraph

/-- A part of a graph is sound when the edges that stay keep their ends, and the
tasks that stay list these edges. -/
theorem Sound.restrict {g g' : TaskGraph} (h : g.Sound) (keepNode : Node → Bool)
    {keepEdge : Edge → Bool} {f : Node → Node} (hid : ∀ n, (f n).id = n.id)
    (hname : ∀ n, (f n).name = n.name)
    (hnodes : g'.nodes = (g.nodes.filter keepNode).map f)
    (hedges : g'.edges = g.edges.filter keepEdge)
    (hends : ∀ e ∈ g.edges, keepEdge e = true → ∀ n ∈ g.nodes,
      n.id = e.source ∨ n.id = e.target → keepNode n = true)
    (hindex : ∀ name id, g'.idOf? name = some id ↔
      ∃ n ∈ g.nodes, keepNode n = true ∧ n.name = name ∧ n.id = id)
    (hin : ∀ n ∈ g.nodes, keepNode n = true →
      (f n).incoming = sourceNames (g.edges.filter keepEdge) n.id)
    (hout : ∀ n ∈ g.nodes, keepNode n = true →
      (f n).outgoing = targetNames (g.edges.filter keepEdge) n.id)
    (hnodesAdded : g'.nodesAdded = g.nodesAdded) (hedgesAdded : g'.edgesAdded = g.edgesAdded) :
    g'.Sound := by
  have hw := h.wellFormed
  have hids : g'.nodes.map Node.id = (g.nodes.filter keepNode).map Node.id := by
    rw [hnodes, List.map_map]
    exact List.map_congr_left fun n _ => hid n
  have hnames : g'.nodes.map Node.name = (g.nodes.filter keepNode).map Node.name := by
    rw [hnodes, List.map_map]
    exact List.map_congr_left fun n _ => hname n
  have hmem : ∀ n ∈ g.nodes, keepNode n = true → f n ∈ g'.nodes := fun n hn hkeep => by
    rw [hnodes]
    exact List.mem_map_of_mem (List.mem_filter.2 ⟨hn, hkeep⟩)
  have hback : ∀ n' ∈ g'.nodes, ∃ n ∈ g.nodes, keepNode n = true ∧ f n = n' := fun n' hn' => by
    rw [hnodes] at hn'
    obtain ⟨n, hn, rfl⟩ := List.mem_map.1 hn'
    exact ⟨n, (List.mem_filter.1 hn).1, (List.mem_filter.1 hn).2, rfl⟩
  have hedge : ∀ e ∈ g'.edges, e ∈ g.edges ∧ keepEdge e = true := fun e he => by
    rw [hedges] at he
    exact List.mem_filter.1 he
  refine ⟨{
    nodeIds := by
      rw [hids]
      exact hw.nodeIds.sublist (List.filter_sublist.map _)
    edgeIds := by
      rw [hedges]
      exact hw.edgeIds.sublist (List.filter_sublist.map _)
    names := by
      rw [hnames]
      exact hw.names.sublist (List.filter_sublist.map _)
    validNames := fun n' hn' => by
      obtain ⟨n, hn, _, rfl⟩ := hback n' hn'
      rw [hname]
      exact hw.validNames n hn
    indexed := fun name id => ?indexed
    sources := fun e he => by
      obtain ⟨he, hkeep⟩ := hedge e he
      obtain ⟨n, hn, hnid, hnname⟩ := hw.sources e he
      exact ⟨f n, hmem n hn (hends e he hkeep n hn (.inl hnid)), (hid n).trans hnid, (hname n).trans hnname⟩
    targets := fun e he => by
      obtain ⟨he, hkeep⟩ := hedge e he
      obtain ⟨n, hn, hnid, hnname⟩ := hw.targets e he
      exact ⟨f n, hmem n hn (hends e he hkeep n hn (.inr hnid)), (hid n).trans hnid, (hname n).trans hnname⟩
    noLoop := fun e he => hw.noLoop e (hedge e he).1
    noRepeat := by
      rw [hedges]
      exact hw.noRepeat.sublist (List.filter_sublist.map _)
    acyclic := hw.acyclic.of_subset fun e he => (hedge e he).1
    incoming := fun n' hn' => by
      obtain ⟨n, hn, hkeep, rfl⟩ := hback n' hn'
      rw [hin n hn hkeep, hedges, hid]
    outgoing := fun n' hn' => by
      obtain ⟨n, hn, hkeep, rfl⟩ := hback n' hn'
      rw [hout n hn hkeep, hedges, hid] }, {
    nodes := fun n' hn' => by
      obtain ⟨n, hn, _, rfl⟩ := hback n' hn'
      rw [hid, hnodesAdded]
      exact h.numbered.nodes n hn
    edges := fun e he => by
      rw [hedgesAdded]
      exact h.numbered.edges e (hedge e he).1 }⟩
  case indexed =>
    refine (hindex name id).trans ⟨?_, ?_⟩
    · rintro ⟨n, hn, hkeep, rfl, rfl⟩
      exact ⟨f n, hmem n hn hkeep, hname n, hid n⟩
    · rintro ⟨n', hn', rfl, rfl⟩
      obtain ⟨n, hn, hkeep, rfl⟩ := hback n' hn'
      exact ⟨n, hn, hkeep, (hname n).symm, (hid n).symm⟩

end TaskGraph

/-! ## Disconnecting -/

namespace Node

section Removed

variable (n : Node) (id name : String)

theorem receives_removeIncoming_name :
    (n.receives id (.removeIncoming name)).name = n.name := by
  refine receives_name ?_
  simp only [send]
  split <;> rfl

theorem receives_removeIncoming_outgoing :
    (n.receives id (.removeIncoming name)).outgoing = n.outgoing := by
  simp only [receives, send]
  split
  · split <;> rfl
  · rfl

/-- A name that is not listed can be removed as well. -/
theorem receives_removeIncoming_incoming :
    (n.receives id (.removeIncoming name)).incoming =
      if n.id = id then n.incoming.filter (· ≠ name) else n.incoming := by
  rw [receives]
  by_cases hid : n.id = id
  · rw [if_pos hid, if_pos hid, send]
    by_cases hmem : name ∈ n.incoming
    · rw [if_pos hmem]
    · have hall : ∀ other ∈ n.incoming, decide (other ≠ name) = true := fun other hother =>
        decide_eq_true fun heq => hmem (heq ▸ hother)
      rw [if_neg hmem, List.filter_eq_self.2 hall]
  · rw [if_neg hid, if_neg hid]

theorem receives_removeOutgoing_name :
    (n.receives id (.removeOutgoing name)).name = n.name := receives_name rfl

theorem receives_removeOutgoing_incoming :
    (n.receives id (.removeOutgoing name)).incoming = n.incoming := by
  rw [receives]
  split <;> rfl

theorem receives_removeOutgoing_outgoing :
    (n.receives id (.removeOutgoing name)).outgoing =
      if n.id = id then n.outgoing.filter (· ≠ name) else n.outgoing := by
  rw [receives]
  split <;> rfl

end Removed

/-- A task after an edge was taken away. -/
def parted (n : Node) (e : Edge) : Node :=
  (n.receives e.source (.removeOutgoing e.targetName)).receives e.target
    (.removeIncoming e.sourceName)

@[simp] theorem parted_id (n : Node) (e : Edge) : (n.parted e).id = n.id := by
  rw [parted, receives_id, receives_id]

@[simp] theorem parted_name (n : Node) (e : Edge) : (n.parted e).name = n.name := by
  rw [parted, receives_removeIncoming_name, receives_removeOutgoing_name]

theorem parted_incoming (n : Node) (e : Edge) :
    (n.parted e).incoming =
      if n.id = e.target then n.incoming.filter (· ≠ e.sourceName) else n.incoming := by
  rw [parted, receives_removeIncoming_incoming, receives_id, receives_removeOutgoing_incoming]

theorem parted_outgoing (n : Node) (e : Edge) :
    (n.parted e).outgoing =
      if n.id = e.source then n.outgoing.filter (· ≠ e.targetName) else n.outgoing := by
  rw [parted, receives_removeIncoming_outgoing, receives_removeOutgoing_outgoing]

end Node

namespace TaskGraph

theorem disconnect_eq {g : TaskGraph} (h : g.WellFormed) {e : Edge} (he : e ∈ g.edges) :
    g.disconnect e.id = (.ok e, { g with
      nodes := g.nodes.map (Node.parted · e)
      edges := g.edges.filter fun e' => e'.id ≠ e.id }) := by
  have hfound : (g.edges.find? fun e' => e'.id = e.id) = some e := by
    cases hfind : g.edges.find? fun e' => e'.id = e.id with
    | none => exact absurd (decide_eq_true rfl) (List.find?_eq_none.1 hfind e he)
    | some e' =>
      have hid : e'.id = e.id := by simpa using List.find?_some hfind
      rw [List.inj_on_of_nodup_map h.edgeIds (List.mem_of_find?_eq_some hfind) he hid]
  let messages := [(e.source, NodeEvent.removeOutgoing e.targetName), (e.target, .removeIncoming e.sourceName)]
  let g' : TaskGraph := { g with edges := g.edges.filter fun e' => e'.id ≠ e.id }
  have hthere : ∀ m ∈ messages, m.1 ∈ g'.nodes.map Node.id := by
    obtain ⟨s, hs, hsid, -⟩ := h.sources e he
    obtain ⟨t, ht, htid, -⟩ := h.targets e he
    simp only [messages, List.forall_mem_cons]
    exact ⟨hsid ▸ List.mem_map_of_mem hs, htid ▸ List.mem_map_of_mem ht, nofun⟩
  rw [disconnect, hfound, eraseP_eq_filter h.edgeIds]
  show ((sendAll messages g').1.map fun _ => e, (sendAll messages g').2) = _
  rw [sendAll_eq (g := g') h.nodeIds hthere]
  rfl

section Parted

variable {g : TaskGraph} {e : Edge} {n : Node}

theorem WellFormed.eq_of_edge_id (h : g.WellFormed) (he : e ∈ g.edges) {e' : Edge} (he' : e' ∈ g.edges)
    (hid : e'.id = e.id) : e' = e := List.inj_on_of_nodup_map h.edgeIds he' he hid

/-- Among the edges into one task, those of other ids come from other tasks. -/
theorem WellFormed.incoming_parted (h : g.WellFormed) (he : e ∈ g.edges) (hn : n ∈ g.nodes) :
    (n.parted e).incoming = sourceNames (g.edges.filter fun e' => e'.id ≠ e.id) n.id := by
  rw [Node.parted_incoming, h.incoming n hn]
  by_cases ht : n.id = e.target
  · rw [if_pos ht]
    refine (sourceNames_filter _ fun e' he' htarget => ?_).symm
    obtain ⟨s, hs, hsid, hsname⟩ := h.sources e he
    have hiff : e'.sourceName = e.sourceName ↔ e'.id = e.id := by
      rw [← hsname, h.sourceName_eq_iff he' hs, hsid]
      exact ⟨fun hsource => by rw [h.eq_of_ends he' he hsource (htarget.trans ht)],
        fun hid => by rw [h.eq_of_edge_id he he' hid]⟩
    simp [hiff]
  · rw [if_neg ht]
    refine (sourceNames_filter_of_kept fun e' he' htarget => ?_).symm
    have hne : e'.id ≠ e.id := fun hid => ht (by rw [← htarget, h.eq_of_edge_id he he' hid])
    simpa using hne

theorem WellFormed.outgoing_parted (h : g.WellFormed) (he : e ∈ g.edges) (hn : n ∈ g.nodes) :
    (n.parted e).outgoing = targetNames (g.edges.filter fun e' => e'.id ≠ e.id) n.id := by
  rw [Node.parted_outgoing, h.outgoing n hn]
  by_cases hs : n.id = e.source
  · rw [if_pos hs]
    refine (targetNames_filter _ fun e' he' hsource => ?_).symm
    obtain ⟨t, ht, htid, htname⟩ := h.targets e he
    have hiff : e'.targetName = e.targetName ↔ e'.id = e.id := by
      rw [← htname, h.targetName_eq_iff he' ht, htid]
      exact ⟨fun htarget => by rw [h.eq_of_ends he' he (hsource.trans hs) htarget],
        fun hid => by rw [h.eq_of_edge_id he he' hid]⟩
    simp [hiff]
  · rw [if_neg hs]
    refine (targetNames_filter_of_kept fun e' he' hsource => ?_).symm
    have hne : e'.id ≠ e.id := fun hid => hs (by rw [← hsource, h.eq_of_edge_id he he' hid])
    simpa using hne

theorem Sound.disconnect {g : TaskGraph} (h : g.Sound) (id : String) :
    (g.disconnect id).2.Sound := by
  have hw := h.wellFormed
  by_cases hedge : ∃ e ∈ g.edges, e.id = id
  · obtain ⟨e, he, rfl⟩ := hedge
    have hindex : ∀ name id, g.idOf? name = some id ↔ ∃ n ∈ g.nodes, true = true ∧ n.name = name ∧ n.id = id :=
      fun name id => by simpa using hw.indexed name id
    rw [disconnect_eq hw he]
    exact h.restrict (fun _ => true) (fun n => Node.parted_id n e) (fun n => Node.parted_name n e) (by simp) rfl
      (fun _ _ _ _ _ _ => rfl) hindex (fun n hn _ => hw.incoming_parted he hn)
      (fun n hn _ => hw.outgoing_parted he hn) rfl rfl
  · have hnone : (g.edges.find? fun e => e.id = id) = none :=
      List.find?_eq_none.2 fun e he => by simpa using fun hid => hedge ⟨e, he, hid⟩
    rw [TaskGraph.disconnect, hnone]
    exact h

end Parted

end TaskGraph

/-! ## Deleting a task -/

namespace Edge

/-- The end of an edge that is not the given task. -/
def otherEnd (e : Edge) (id : String) : String := if e.source = id then e.target else e.source

/-- What the other end is told when a task is gone. -/
def farewell (e : Edge) (id : String) : NodeEvent :=
  if e.source = id then .removeIncoming e.sourceName else .removeOutgoing e.targetName

end Edge

/-- A task after it was told of the end of another one, edge by edge. -/
def Node.leftBy (id : String) (lost : List Edge) (n : Node) : Node :=
  lost.foldl (fun n e => n.receives (e.otherEnd id) (e.farewell id)) n

@[simp] theorem Node.leftBy_id (id : String) (lost : List Edge) (n : Node) :
    (n.leftBy id lost).id = n.id := by
  induction lost generalizing n with
  | nil => rfl
  | cons e lost ih =>
    rw [leftBy, List.foldl_cons, ← leftBy, ih, receives_id]

namespace TaskGraph

/-- Every edge of a deleted task is told to its other end, and no message fails. -/
theorem dropEdges_eq {g : TaskGraph} {id : String} {lost : List Edge} (hids : (g.nodes.map Node.id).Nodup)
    (hothers : ∀ e ∈ lost, e.otherEnd id ∈ g.nodes.map Node.id) :
    dropEdges id lost g =
      (.ok (lost.map (·.otherEnd id)), { g with nodes := g.nodes.map (Node.leftBy id lost) }) := by
  induction lost generalizing g with
  | nil =>
    show (_, { g with nodes := g.nodes }) = (_, { g with nodes := g.nodes.map fun n => n })
    rw [List.map_id']
    rfl
  | cons e lost ih =>
    have hmessage : (if e.source = id then (e.target, NodeEvent.removeIncoming e.sourceName)
        else (e.source, .removeOutgoing e.targetName)) = (e.otherEnd id, e.farewell id) := by
      rw [Edge.otherEnd, Edge.farewell]
      split <;> rfl
    -- The message leaves every task in its place, so the others still arrive.
    have hkept := ids_map (Node.receives_id (e.otherEnd id) (e.farewell id)) g.nodes
    have hrest := ih (g := { g with nodes := g.nodes.map (Node.receives (e.otherEnd id) (e.farewell id)) })
      (hkept ▸ hids) fun e' he' => hkept ▸ hothers e' (List.mem_cons_of_mem e he')
    obtain ⟨_, hsend⟩ := send_of_mem hids (hothers e List.mem_cons_self) (e.farewell id)
    rw [dropEdges, hmessage]
    simp only [hsend, hrest, List.map_map]
    rfl

/-- Deleting a task leaves the others. -/
theorem mem_ids_of_ne {nodes : List Node} {id other : String} (h : other ∈ nodes.map Node.id)
    (hne : other ≠ id) : other ∈ (nodes.filter fun n => n.id ≠ id).map Node.id := by
  obtain ⟨n, hn, rfl⟩ := List.mem_map.1 h
  exact List.mem_map_of_mem (List.mem_filter.2 ⟨hn, decide_eq_true hne⟩)

/-- A deletion succeeds where every edge has two different tasks at its ends. -/
theorem delete_of_node? {g : TaskGraph} {id : String} {gone : Node} (hgone : g.node? id = some gone)
    (hids : (g.nodes.map Node.id).Nodup)
    (hends : ∀ e ∈ g.edges,
      e.source ≠ e.target ∧ e.source ∈ g.nodes.map Node.id ∧ e.target ∈ g.nodes.map Node.id) :
    g.delete id = (.ok (withoutRepeats ((g.edges.filter fun e => e.touches id).map (·.otherEnd id))), { g with
      nodes := (g.nodes.filter fun n => n.id ≠ id).map (Node.leftBy id (g.edges.filter fun e => e.touches id))
      edges := g.edges.filter fun e => !e.touches id
      index := g.index.erase gone.name }) := by
  let rest : TaskGraph := { g with
    nodes := g.nodes.filter fun n => n.id ≠ id
    edges := g.edges.filter fun e => !e.touches id
    index := g.index.erase gone.name }
  have hothers : ∀ e ∈ g.edges.filter fun e => e.touches id, e.otherEnd id ∈ rest.nodes.map Node.id := by
    intro e he
    obtain ⟨hne, hs, ht⟩ := hends e (List.mem_filter.1 he).1
    rw [Edge.otherEnd]
    split
    · next hsource => exact mem_ids_of_ne ht fun heq => hne (hsource.trans heq.symm)
    · next hsource => exact mem_ids_of_ne hs hsource
  have hdrop := dropEdges_eq (g := rest) (hids.sublist (List.filter_sublist.map _)) hothers
  rw [delete, hgone]
  simp only [eraseP_eq_filter hids]
  rw [hdrop]

end TaskGraph

/-- Some edge of a list leads from one task to another. -/
def leads (edges : List Edge) (a b : String) : Bool :=
  edges.any fun e => e.source = a && e.target = b

theorem leads_cons (e : Edge) (edges : List Edge) (a b : String) :
    leads (e :: edges) a b = (leads [e] a b || leads edges a b) := by
  simp [leads]

theorem leads_iff {edges : List Edge} {a b : String} : leads edges a b = true ↔ Feeds edges a b := by
  simp [leads, Feeds]

/-- The edges between two tasks touch them both. -/
theorem leads_filter_touches (edges : List Edge) {a b id : String} (h : a = id ∨ b = id) :
    leads (edges.filter fun e => e.touches id) a b = leads edges a b := by
  rw [leads, leads, List.any_filter]
  congr 1
  funext e
  rcases h with rfl | rfl
  · cases hs : decide (e.source = a) <;> simp [Edge.touches, hs]
  · cases ht : decide (e.target = b) <;> simp [Edge.touches, ht]

namespace Node

/-- What is left of a task when another one is gone: its name where edges led from it or to it, and
the result that was got with its help. -/
def bereft (n gone : Node) (lost : List Edge) : Node :=
  { n with
    incoming := if leads lost gone.id n.id then n.incoming.filter (· ≠ gone.name) else n.incoming
    outgoing := if leads lost n.id gone.id then n.outgoing.filter (· ≠ gone.name) else n.outgoing
    runResult := if leads lost gone.id n.id then none else n.runResult }

variable {gone n : Node} {lost : List Edge}

theorem bereft_bereft (e : Edge) : (n.bereft gone [e]).bereft gone lost = n.bereft gone (e :: lost) := by
  by_cases hto : leads [e] gone.id n.id = true <;> by_cases hto' : leads lost gone.id n.id = true <;>
    by_cases hfrom : leads [e] n.id gone.id = true <;> by_cases hfrom' : leads lost n.id gone.id = true <;>
    simp [bereft, leads_cons e lost, hto, hto', hfrom, hfrom', List.filter_filter]

/-- An edge of a deleted task, under the name that the task had. -/
structure Lost (gone : Node) (e : Edge) : Prop where
  noLoop : e.source ≠ e.target
  touches : e.source = gone.id ∨ e.target = gone.id
  sourceName : e.source = gone.id → e.sourceName = gone.name
  targetName : e.target = gone.id → e.targetName = gone.name

theorem receives_farewell {e : Edge} (h : gone.Lost e)
    (hlisted : Feeds [e] gone.id n.id → gone.name ∈ n.incoming) :
    n.receives (e.otherEnd gone.id) (e.farewell gone.id) = n.bereft gone [e] := by
  by_cases hs : e.source = gone.id
  · have ht : e.target ≠ gone.id := fun ht => h.noLoop (hs.trans ht.symm)
    have hfrom : leads [e] n.id gone.id = false := by simp [leads, ht]
    rw [Edge.otherEnd, Edge.farewell, if_pos hs, if_pos hs, h.sourceName hs, receives, bereft, hfrom]
    by_cases hid : n.id = e.target
    · have hto : leads [e] gone.id n.id = true := by simp [leads, hs, hid]
      rw [if_pos hid, hto, send, if_pos (hlisted (leads_iff.1 hto))]
      rfl
    · have hto : leads [e] gone.id n.id = false := by simp [leads, hs, Ne.symm hid]
      rw [if_neg hid, hto]
      rfl
  · have ht : e.target = gone.id := h.touches.resolve_left hs
    have hto : leads [e] gone.id n.id = false := by simp [leads, hs]
    rw [Edge.otherEnd, Edge.farewell, if_neg hs, if_neg hs, h.targetName ht, receives, bereft, hto]
    by_cases hid : n.id = e.source
    · have hfrom : leads [e] n.id gone.id = true := by simp [leads, ht, hid]
      rw [if_pos hid, hfrom]
      rfl
    · have hfrom : leads [e] n.id gone.id = false := by simp [leads, Ne.symm hid]
      rw [if_neg hid, hfrom]
      rfl

/-- All the messages about a deleted task come to one change. -/
theorem leftBy_eq (hlost : ∀ e ∈ lost, gone.Lost e)
    (hrepeat : (lost.map fun e => (e.source, e.target)).Nodup)
    (hlisted : Feeds lost gone.id n.id → gone.name ∈ n.incoming) :
    n.leftBy gone.id lost = n.bereft gone lost := by
  induction lost generalizing n with
  | nil => rfl
  | cons e lost ih =>
    rw [List.map_cons, List.nodup_cons] at hrepeat
    have hfirst : n.receives (e.otherEnd gone.id) (e.farewell gone.id) = n.bereft gone [e] := by
      refine receives_farewell (hlost e List.mem_cons_self) fun hfeeds => hlisted (hfeeds.mono ?_)
      simp
    show (n.receives (e.otherEnd gone.id) (e.farewell gone.id)).leftBy gone.id lost = _
    rw [hfirst, ih (fun e' he' => hlost e' (List.mem_cons_of_mem e he')) hrepeat.2, bereft_bereft]
    rintro ⟨e', he', hs', ht'⟩
    -- No two edges lead to the task, so its list was not shortened yet.
    have hnot : leads [e] gone.id n.id = false := by
      refine Bool.eq_false_iff.2 fun hleads => hrepeat.1 ?_
      have hends : e.source = gone.id ∧ e.target = n.id := by simpa [leads] using hleads
      exact List.mem_map.2 ⟨e', he', Prod.ext (hs'.trans hends.1.symm) (ht'.trans hends.2.symm)⟩
    show gone.name ∈ (n.bereft gone [e]).incoming
    rw [bereft, hnot]
    exact hlisted ⟨e', List.mem_cons_of_mem e he', hs', ht'⟩

end Node

namespace TaskGraph

theorem WellFormed.ends {g : TaskGraph} (h : g.WellFormed) :
    ∀ e ∈ g.edges, e.source ≠ e.target ∧ e.source ∈ g.nodes.map Node.id ∧ e.target ∈ g.nodes.map Node.id := by
  intro e he
  obtain ⟨s, hs, hsid, -⟩ := h.sources e he
  obtain ⟨t, ht, htid, -⟩ := h.targets e he
  exact ⟨h.noLoop e he, hsid ▸ List.mem_map_of_mem hs, htid ▸ List.mem_map_of_mem ht⟩

/-- Of a well-formed graph a deletion leaves the other tasks, without the name of the one that
is gone. -/
theorem delete_eq {g : TaskGraph} (h : g.WellFormed) {gone : Node} (hgone : gone ∈ g.nodes) :
    g.delete gone.id =
      (.ok (withoutRepeats ((g.edges.filter fun e => e.touches gone.id).map (·.otherEnd gone.id))), { g with
        nodes := (g.nodes.filter fun n => n.id ≠ gone.id).map (Node.bereft · gone g.edges)
        edges := g.edges.filter fun e => !e.touches gone.id
        index := g.index.erase gone.name }) := by
  have hlost : ∀ e ∈ g.edges.filter fun e => e.touches gone.id, gone.Lost e := by
    intro e he
    obtain ⟨he, htouches⟩ := List.mem_filter.1 he
    exact ⟨h.noLoop e he, by simpa [Edge.touches] using htouches, (h.sourceName_eq_iff he hgone).2,
      (h.targetName_eq_iff he hgone).2⟩
  have hnodes : (g.nodes.filter fun n => n.id ≠ gone.id).map
        (Node.leftBy gone.id (g.edges.filter fun e => e.touches gone.id)) =
      (g.nodes.filter fun n => n.id ≠ gone.id).map (Node.bereft · gone g.edges) := by
    refine List.map_congr_left fun n hn => ?_
    rw [Node.leftBy_eq hlost (h.noRepeat.sublist (List.filter_sublist.map _)), Node.bereft, Node.bereft,
      leads_filter_touches g.edges (.inl rfl), leads_filter_touches g.edges (.inr rfl)]
    rintro ⟨e, he, hs, ht⟩
    have he := (List.mem_filter.1 he).1
    rw [h.incoming n (List.mem_filter.1 hn).1]
    exact mem_sourceNames.2 ⟨e, he, ht, (h.sourceName_eq_iff he hgone).2 hs⟩
  rw [delete_of_node? (node?_eq_some h.nodeIds hgone) h.nodeIds h.ends, hnodes]

section Bereft

variable {g : TaskGraph} {gone n : Node}

/-- The name of the task that is gone leads nowhere, the others to where they led. -/
theorem WellFormed.indexed_erase (h : g.WellFormed) (hgone : gone ∈ g.nodes) (name id : String) :
    (g.index.erase gone.name).find? name = some id ↔
      ∃ n ∈ g.nodes, decide (n.id ≠ gone.id) = true ∧ n.name = name ∧ n.id = id := by
  rw [Dict.find?_erase]
  by_cases hname : gone.name = name
  · rw [if_pos hname]
    refine iff_of_false nofun ?_
    rintro ⟨n, hn, hkeep, hnname, -⟩
    have hsame := eq_of_name_eq h.names hn hgone (hnname.trans hname.symm)
    exact absurd (congrArg Node.id hsame) (of_decide_eq_true hkeep)
  · rw [if_neg hname]
    refine (h.indexed name id).trans ⟨?_, ?_⟩
    · rintro ⟨n, hn, hnname, hnid⟩
      refine ⟨n, hn, decide_eq_true fun heq => hname ?_, hnname, hnid⟩
      rw [← eq_of_id_eq h.nodeIds hn hgone heq, hnname]
    · rintro ⟨n, hn, -, hnname, hnid⟩
      exact ⟨n, hn, hnname, hnid⟩

theorem WellFormed.incoming_bereft (h : g.WellFormed) (hgone : gone ∈ g.nodes) (hn : n ∈ g.nodes)
    (hne : n.id ≠ gone.id) :
    (n.bereft gone g.edges).incoming = sourceNames (g.edges.filter fun e => !e.touches gone.id) n.id := by
  show (if leads g.edges gone.id n.id then n.incoming.filter (· ≠ gone.name) else n.incoming) = _
  rw [h.incoming n hn]
  cases hleads : leads g.edges gone.id n.id with
  | true =>
    rw [if_pos rfl]
    refine (sourceNames_filter _ fun e he htarget => ?_).symm
    simp [Edge.touches, htarget, hne, h.sourceName_eq_iff he hgone]
  | false =>
    rw [if_neg (by simp)]
    refine (sourceNames_filter_of_kept fun e he htarget => ?_).symm
    have hs : e.source ≠ gone.id := fun hs => by
      rw [leads_iff.2 ⟨e, he, hs, htarget⟩] at hleads
      cases hleads
    simp [Edge.touches, htarget, hne, hs]

theorem WellFormed.outgoing_bereft (h : g.WellFormed) (hgone : gone ∈ g.nodes) (hn : n ∈ g.nodes)
    (hne : n.id ≠ gone.id) :
    (n.bereft gone g.edges).outgoing = targetNames (g.edges.filter fun e => !e.touches gone.id) n.id := by
  show (if leads g.edges n.id gone.id then n.outgoing.filter (· ≠ gone.name) else n.outgoing) = _
  rw [h.outgoing n hn]
  cases hleads : leads g.edges n.id gone.id with
  | true =>
    rw [if_pos rfl]
    refine (targetNames_filter _ fun e he hsource => ?_).symm
    simp [Edge.touches, hsource, hne, h.targetName_eq_iff he hgone]
  | false =>
    rw [if_neg (by simp)]
    refine (targetNames_filter_of_kept fun e he hsource => ?_).symm
    have ht : e.target ≠ gone.id := fun ht => by
      rw [leads_iff.2 ⟨e, he, hsource, ht⟩] at hleads
      cases hleads
    simp [Edge.touches, hsource, hne, ht]

/-- What is left of a graph without one of its tasks. -/
theorem Sound.delete {g : TaskGraph} (h : g.Sound) (id : String) : (g.delete id).2.Sound := by
  have hw := h.wellFormed
  cases hnode : g.node? id with
  | none =>
    rw [TaskGraph.delete, hnode]
    exact h
  | some gone =>
    have hgone : gone ∈ g.nodes := mem_of_node? hnode
    -- An edge that stays does not touch the task that is gone.
    have hends : ∀ e ∈ g.edges, (!e.touches gone.id) = true → ∀ n ∈ g.nodes,
        n.id = e.source ∨ n.id = e.target → decide (n.id ≠ gone.id) = true := by
      intro e _ hkeep n _ hend
      rw [Edge.touches, Bool.not_eq_true', Bool.or_eq_false_iff, decide_eq_false_iff_not,
        decide_eq_false_iff_not] at hkeep
      rcases hend with hend | hend
      · exact decide_eq_true (hend ▸ hkeep.1)
      · exact decide_eq_true (hend ▸ hkeep.2)
    rw [← id_of_node? hnode, delete_eq hw hgone]
    exact h.restrict (fun n => n.id ≠ gone.id) (f := (Node.bereft · gone g.edges)) (fun n => rfl) (fun n => rfl)
      rfl rfl hends (hw.indexed_erase hgone)
      (fun n hn hkeep => hw.incoming_bereft hgone hn (of_decide_eq_true hkeep))
      (fun n hn hkeep => hw.outgoing_bereft hgone hn (of_decide_eq_true hkeep)) rfl rfl

end Bereft

end TaskGraph
end JobPipeline
