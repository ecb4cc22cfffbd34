import JobPipeline.Proofs.Graph.Anchored

/-
Edges that close a cycle are refused, and no others.

The search for a way back has a bound on its steps in its definition.  `Searched` is the
same course without a bound, and the search comes to its end on any edges whatever, also
where they go round.  So an edge is refused for a cycle exactly if there is one with it.

For this the edges that are there must have no cycle themselves.  No event touches them, so
it holds of every graph that was handled, in whatever state its tasks are: an edit leaves
some of the edges out, or adds one edge that no way leads back over.
-/
namespace JobPipeline

open Relation (ReflTransGen TransGen)

namespace TaskGraph

/-! ## The search has an end -/

/-- The course of a search from a queue, with what it finds. -/
inductive Searched (edges : List Edge) (goal : String) : (seen queue : List String) → Bool → Prop
  | exhausted {seen : List String} : Searched edges goal seen [] false
  | found {seen queue : List String} : Searched edges goal seen (goal :: queue) true
  | skipped {seen queue : List String} {current : String} {found : Bool} :
      current ≠ goal → current ∈ seen → Searched edges goal seen queue found →
      Searched edges goal seen (current :: queue) found
  | followed {seen queue : List String} {current : String} {found : Bool} :
      current ≠ goal → current ∉ seen →
      Searched edges goal (current :: seen)
        (queue ++ (edges.filter fun e => e.source = current).map Edge.target) found →
      Searched edges goal seen (current :: queue) found

/-- The steps that are counted on are enough for the whole course. -/
theorem searched_searchFrom {edges : List Edge} {goal : String} {fuel : Nat} {seen queue : List String}
    (hcost : searchCost edges seen queue ≤ fuel) :
    Searched edges goal seen queue (searchFrom edges goal fuel seen queue) := by
  induction fuel generalizing seen queue with
  | zero =>
    have hqueue : queue = [] := List.length_eq_zero_iff.1 (by rw [searchCost] at hcost; omega)
    subst hqueue
    exact .exhausted
  | succ fuel ih =>
    cases queue with
    | nil => exact .exhausted
    | cons current queue =>
      rw [searchFrom]
      by_cases hgoal : current = goal
      · rw [if_pos hgoal, hgoal]
        exact .found
      · rw [if_neg hgoal]
        have hless : searchCost edges seen queue ≤ fuel := by
          rw [searchCost, List.length_cons] at hcost
          rw [searchCost]
          omega
        by_cases hseen : current ∈ seen
        · rw [if_pos hseen]
          exact .skipped hgoal hseen (ih hless)
        · rw [if_neg hseen]
          refine .followed hgoal hseen (ih ?_)
          rw [searchCost_follow edges hseen]
          exact hless

/-- A course can go one way only. -/
theorem Searched.unique {edges : List Edge} {goal : String} {seen queue : List String} {found other : Bool}
    (h : Searched edges goal seen queue found) (h' : Searched edges goal seen queue other) : found = other := by
  induction h generalizing other with
  | exhausted =>
    cases h'
    rfl
  | found =>
    cases h' with
    | found => rfl
    | skipped hgoal => exact absurd rfl hgoal
    | followed hgoal => exact absurd rfl hgoal
  | skipped hgoal hseen _ ih =>
    cases h' with
    | found => exact absurd rfl hgoal
    | skipped _ _ h' => exact ih h'
    | followed _ hnew => exact absurd hseen hnew
  | followed hgoal hnew _ ih =>
    cases h' with
    | found => exact absurd rfl hgoal
    | skipped _ hseen => exact absurd hseen hnew
    | followed _ _ h' => exact ih h'

theorem searched_iff (g : TaskGraph) (start goal : String) (found : Bool) :
    Searched g.edges goal [] [start] found ↔ g.reaches start goal = found := by
  have hcourse : Searched g.edges goal [] [start] (g.reaches start goal) :=
    searched_searchFrom (searchCost_start g.edges start)
  constructor
  · intro h
    exact hcourse.unique h
  · rintro rfl
    exact hcourse

/-! ## What an edit does to the edges -/

/-- What an edit can make of the edges: no new ways, or one new edge that no way leads
back over. -/
inductive Redrawn (edges : List Edge) : List Edge → Prop
  | fewer {edges' : List Edge} (h : ∀ a b, Feeds edges' a b → Feeds edges a b) : Redrawn edges edges'
  | one {e : Edge} (h : ¬ReflTransGen (Feeds edges) e.target e.source) : Redrawn edges (edges ++ [e])

theorem Redrawn.of_subset {edges edges' : List Edge} (h : ∀ e ∈ edges', e ∈ edges) : Redrawn edges edges' :=
  .fewer fun _ _ hab => hab.mono h

theorem Redrawn.refl (edges : List Edge) : Redrawn edges edges := .fewer fun _ _ hab => hab

theorem Redrawn.acyclic {edges edges' : List Edge} (h : Redrawn edges edges') (hacyclic : Acyclic edges) :
    Acyclic edges' := by
  cases h with
  | fewer h => exact fun a ha => hacyclic a (TransGen.mono h a a ha)
  | one h => exact hacyclic.append_singleton h

namespace Anchored

variable {g : TaskGraph}

theorem redrawn_insertEdge (h : g.Anchored) {s t : Node} (hs : s ∈ g.nodes) (ht : t ∈ g.nodes)
    (hback : ¬ReflTransGen (Feeds g.edges) t.id s.id) : Redrawn g.edges (g.insertEdge s t).2.edges := by
  rw [insertEdge_eq h.nodeIds hs ht]
  exact .one hback

/-- No edge leads to or from a task that is just being added. -/
theorem newNode_apart (h : g.Anchored) (kind : TaskKind) (name : String) (position : Position) {e : Edge}
    (he : e ∈ g.edges) :
    e.source ≠ (g.newNode kind name position).id ∧ e.target ≠ (g.newNode kind name position).id := by
  have hne : ∀ id ∈ g.nodes.map Node.id, id ≠ (g.newNode kind name position).id := by
    intro id hid
    obtain ⟨n, hn, rfl⟩ := List.mem_map.1 hid
    exact newNode_id_ne h.numbered hn
  obtain ⟨-, hs, ht⟩ := h.ends e he
  exact ⟨hne _ hs, hne _ ht⟩

theorem redrawn_addNamed (h : g.Anchored) (kind : TaskKind) (name : String) (position : Position)
    (attachment : Option Attachment) :
    Redrawn g.edges (g.addNamed kind name position attachment).2.edges := by
  rw [TaskGraph.addNamed]
  cases hname : g.nameError? name none with
  | some error => exact .refl g.edges
  | none =>
    have hgrown : (g.grown kind name position).Anchored := h.grown
    have hnode : g.newNode kind name position ∈ (g.grown kind name position).nodes :=
      List.mem_append_right _ (List.mem_singleton.2 rfl)
    cases attachment with
    | none => exact .refl g.edges
    | some a =>
      cases hneighbour : g.node? a.neighbour with
      | none => simpa only [hneighbour] using .refl g.edges
      | some neighbour =>
        have hold : neighbour ∈ g.nodes := mem_of_node? hneighbour
        have hmem : neighbour ∈ (g.grown kind name position).nodes := List.mem_append_left _ hold
        have hne : neighbour.id ≠ (g.newNode kind name position).id := newNode_id_ne h.numbered hold
        cases hrole : a.role with
        | source =>
          simp only [hneighbour, hrole]
          refine hgrown.redrawn_insertEdge hnode hmem fun hway => ?_
          rcases ReflTransGen.cases_tail hway with heq | ⟨b, -, e, he, -, htarget⟩
          · exact hne heq.symm
          · exact (h.newNode_apart kind name position he).2 htarget
        | target =>
          simp only [hneighbour, hrole]
          refine hgrown.redrawn_insertEdge hmem hnode fun hway => ?_
          rcases ReflTransGen.cases_head hway with heq | ⟨b, ⟨e, he, hsource, -⟩, -⟩
          · exact hne heq.symm
          · exact (h.newNode_apart kind name position he).1 hsource

theorem redrawn_connect (h : g.Anchored) (source target : String) :
    Redrawn g.edges (g.connect source target).2.edges := by
  rcases connect_cases g source target with ⟨error, hrefused⟩ | ⟨s, t, hs, ht, -, -, hback, hput⟩
  · rw [hrefused]
    exact .refl g.edges
  · rw [hput]
    refine h.redrawn_insertEdge (mem_of_node? hs) (mem_of_node? ht) ?_
    rwa [id_of_node? hs, id_of_node? ht]

theorem redrawn_connectNamed (h : g.Anchored) (source target : String) :
    Redrawn g.edges (g.connectNamed source target).2.edges := by
  rw [TaskGraph.connectNamed]
  cases g.idOf? source with
  | none => exact .refl g.edges
  | some s =>
    cases g.idOf? target with
    | none => exact .refl g.edges
    | some t => exact h.redrawn_connect s t

theorem redrawn_disconnect (h : g.Anchored) (id : String) : Redrawn g.edges (g.disconnect id).2.edges := by
  rw [TaskGraph.disconnect]
  cases hfound : g.edges.find? fun e => e.id = id with
  | none => exact .refl g.edges
  | some e =>
    obtain ⟨-, hs, ht⟩ := h.ends e (List.mem_of_find?_eq_some hfound)
    let messages := [(e.source, NodeEvent.removeOutgoing e.targetName), (e.target, .removeIncoming e.sourceName)]
    have hthere : ∀ m ∈ messages, m.1 ∈ g.nodes.map Node.id := by
      simp only [messages, List.forall_mem_cons]
      exact ⟨hs, ht, List.forall_mem_nil _⟩
    let rest : TaskGraph := { g with edges := g.edges.eraseP fun e => e.id = id }
    show Redrawn g.edges (sendAll messages rest).2.edges
    rw [sendAll_eq (g := rest) h.nodeIds hthere]
    exact .of_subset fun e' he' => List.mem_of_mem_eraseP he'

theorem redrawn_delete (h : g.Anchored) (id : String) : Redrawn g.edges (g.delete id).2.edges := by
  cases hnode : g.node? id with
  | none =>
    rw [TaskGraph.delete, hnode]
    exact .refl g.edges
  | some gone =>
    rw [delete_of_node? hnode h.nodeIds h.ends]
    exact .of_subset fun e he => (List.mem_filter.1 he).1

theorem redrawn_rename (g : TaskGraph) (id new : String) (policy : RenamePolicy) :
    Redrawn g.edges (g.rename id new policy).2.edges := by
  rw [TaskGraph.rename]
  cases hnode : g.node? id with
  | none => exact .refl g.edges
  | some node =>
    dsimp only
    split
    · exact .refl g.edges
    · cases hname : g.nameError? new (some id) with
      | some error => exact .refl g.edges
      | none =>
        have hedges : (g.notify id (.setName new)).edges = g.edges := by
          rw [notify, TaskGraph.send, hnode]
          rfl
        refine .fewer fun a b hab => ?_
        have hfeeds : Feeds (g.edges.map fun e => e.renamed id new) = Feeds g.edges :=
          feeds_map fun e => ⟨rfl, rfl⟩
        rw [← hfeeds, ← hedges]
        exact hab

theorem redrawn_change (g : TaskGraph) (id : String) (f : Node → Node) :
    Redrawn g.edges (g.change id f).2.edges := by
  rw [TaskGraph.change]
  split
  · exact .refl g.edges
  · exact .refl g.edges

theorem redrawn_after (h : g.Anchored) (edit : Edit) : Redrawn g.edges (g.after edit).edges := by
  cases edit with
  | add kind position attachment => exact h.redrawn_addNamed kind g.nextName position attachment
  | addNamed kind name position attachment => exact h.redrawn_addNamed kind name position attachment
  | connect source target => exact h.redrawn_connect source target
  | connectNamed source target => exact h.redrawn_connectNamed source target
  | disconnect id => exact h.redrawn_disconnect id
  | rename id new policy => exact redrawn_rename g id new policy
  | delete id => exact h.redrawn_delete id
  | replaceKind id kind => exact redrawn_change g id _
  | setFields id values => exact redrawn_change g id _
  | setMock id mock => exact redrawn_change g id _
  | setPosition id position => exact redrawn_change g id _
  | resetAll => exact .refl g.edges

end Anchored

theorem Handled.acyclic {g : TaskGraph} (h : g.Handled) : Acyclic g.edges := by
  induction h with
  | empty => exact wellFormed_empty.acyclic
  | @edit g h edit ih => exact (h.anchored.redrawn_after edit).acyclic ih
  | @send g h id event ih =>
    have hsent : (g.send id event).2 = { g with nodes := g.nodes.map (Node.receives id event) } :=
      notify_eq h.anchored.nodeIds id event
    rw [hsent]
    exact ih

/-! ## Which edges are accepted -/

/-- Two different tasks without an edge between them are connected unless there is a way back. -/
theorem connect_of_apart {g : TaskGraph} {source target : String} {s t : Node}
    (hs : g.node? source = some s) (ht : g.node? target = some t) (hne : source ≠ target)
    (hnew : ¬Feeds g.edges source target) :
    g.connect source target =
      if g.reaches target source then (.error (.cycle s.name t.name), g) else g.insertEdge s t := by
  have hrepeat : ¬(g.edges.any fun e => e.source = source && e.target = target) = true := by
    simpa [Feeds] using hnew
  rw [connect, hs, ht]
  simp only [if_neg hne, if_neg hrepeat]

variable {g : TaskGraph}

theorem Handled.connect_ok_iff (h : g.Handled) (source target : String) :
    ((∃ id, (g.connect source target).1 = .ok id) ↔
      g.hasNode source = true ∧ g.hasNode target = true ∧ source ≠ target ∧
        ¬Feeds g.edges source target ∧
        ∀ a, ¬TransGen (fun b c => Feeds g.edges b c ∨ (source = b ∧ target = c)) a a) ∧
    (∀ s t, g.node? source = some s → g.node? target = some t → source ≠ target →
      ¬Feeds g.edges source target →
      ((g.connect source target).1 = .error (.cycle s.name t.name) ↔
        TransGen (Feeds g.edges) target source)) ∧
    ∀ (other : TaskGraph) (start goal : String) (found : Bool),
      Searched other.edges goal [] [start] found ↔ other.reaches start goal = found := by
  have hids := h.anchored.nodeIds
  have hcycle : (∀ a, ¬TransGen (fun b c => Feeds g.edges b c ∨ (source = b ∧ target = c)) a a) ↔
      ¬ReflTransGen (Feeds g.edges) target source := by
    let e : Edge := ⟨"", source, target, "", ""⟩
    have hedges : Feeds (g.edges ++ [e]) = fun b c => Feeds g.edges b c ∨ (source = b ∧ target = c) :=
      funext fun b => funext fun c => propext feeds_append_singleton
    rw [← hedges]
    exact acyclic_append_singleton_iff h.acyclic
  rw [hcycle]
  refine ⟨⟨?_, ?_⟩, fun s t hs ht hne hnew => ?_, searched_iff⟩
  · rintro ⟨id, hok⟩
    rcases connect_cases g source target with ⟨error, hrefused⟩ | ⟨s, t, hs, ht, hne, hnew, hback, -⟩
    · rw [hrefused] at hok
      cases hok
    · exact ⟨by rw [hasNode, hs]; rfl, by rw [hasNode, ht]; rfl, hne, hnew, hback⟩
  · rintro ⟨hsource, htarget, hne, hnew, hback⟩
    obtain ⟨s, hs⟩ := Option.isSome_iff_exists.1 hsource
    obtain ⟨t, ht⟩ := Option.isSome_iff_exists.1 htarget
    rw [← reaches_iff, Bool.not_eq_true] at hback
    rw [connect_of_apart hs ht hne hnew, hback, insertEdge_eq hids (mem_of_node? hs) (mem_of_node? ht)]
    exact ⟨_, rfl⟩
  · rw [connect_of_apart hs ht hne hnew]
    constructor
    · intro herror
      by_cases hback : g.reaches target source = true
      · rw [reaches_iff, Relation.reflTransGen_iff_eq_or_transGen] at hback
        exact hback.resolve_left hne
      · rw [if_neg hback, insertEdge_eq hids (mem_of_node? hs) (mem_of_node? ht)] at herror
        cases herror
    · intro hway
      rw [if_pos ((reaches_iff g target source).2 hway.to_reflTransGen)]

/-- A row of three tasks, of which the second was sent the name of the first. -/
def rowGraph : TaskGraph :=
  ((empty.afterAll [.addNamed .http "fetch" .origin none,
    .addNamed .jsonParse "parse" .origin (some ⟨"node_1", .target⟩),
    .addNamed .sum "total" .origin (some ⟨"node_2", .target⟩)]).send "node_2" (.setName "fetch")).2

theorem Handled.connect_ok_iff_rowGraph :
    rowGraph.Handled ∧ (rowGraph.connect "node_3" "node_1").1 = .error (.cycle "total" "fetch") ∧
      (∃ id, (rowGraph.connect "node_1" "node_3").1 = .ok id) ∧
      ∀ a, ¬TransGen (fun b c => Feeds rowGraph.edges b c ∨ ("node_1" = b ∧ "node_3" = c)) a a := by
  have hrow : rowGraph.Handled := by
    unfold rowGraph
    exact .send (Handled.empty.afterAll _) "node_2" _
  have hleads : leads rowGraph.edges "node_1" "node_2" && leads rowGraph.edges "node_2" "node_3" := by
    decide +kernel
  have hapart : leads rowGraph.edges "node_3" "node_1" = false := by decide +kernel
  have hway : TransGen (Feeds rowGraph.edges) "node_1" "node_3" := by
    rw [Bool.and_eq_true, leads_iff, leads_iff] at hleads
    exact .tail (.single hleads.1) hleads.2
  obtain ⟨-, hcycle, -⟩ := hrow.connect_ok_iff "node_3" "node_1"
  have hlast : (rowGraph.node? "node_3").map Node.name = some "total" := by decide +kernel
  have hfirst : (rowGraph.node? "node_1").map Node.name = some "fetch" := by decide +kernel
  obtain ⟨s, hs, hsname⟩ := Option.map_eq_some_iff.1 hlast
  obtain ⟨t, ht, htname⟩ := Option.map_eq_some_iff.1 hfirst
  have hnew : ¬Feeds rowGraph.edges "node_3" "node_1" := by
    rw [← leads_iff, hapart]
    decide
  have hrefused := (hcycle s t hs ht (by decide) hnew).2 hway
  rw [hsname, htname] at hrefused
  obtain ⟨haccept, -, -⟩ := hrow.connect_ok_iff "node_1" "node_3"
  have hok : ∃ id, (rowGraph.connect "node_1" "node_3").1 = .ok id := ⟨"edge_3", by decide +kernel⟩
  exact ⟨hrow, hrefused, hok, (haccept.1 hok).2.2.2.2⟩

end TaskGraph
end JobPipeline
