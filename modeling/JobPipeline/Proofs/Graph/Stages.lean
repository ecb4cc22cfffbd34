import JobPipeline.Proofs.Graph.History

/-
What edits leave of an evaluation.

An edit may come at any moment of a simulation.  It brings in tasks that are idle and
takes tasks away, but it moves no task on: each task that stays has its state and the
request that it was last asked with, and, unless it is renamed, its name.
-/
namespace JobPipeline

/-- How far a task has come. -/
structure Node.Stage where
  id : String
  name : String
  state : NodeState
  lastRequest : Option Request

namespace Node

def stage (n : Node) : Stage := ⟨n.id, n.name, n.state, n.lastRequest⟩

/-- A stage of whatever name. -/
def Stage.unnamed (t : Stage) : Stage := { t with name := "" }

/-- Events by which a graph tells its tasks of an edit, but for a rename. -/
def Edits : NodeEvent → Prop
  | .setFields _ | .resetFields _ | .setMock _ | .addIncoming _ | .addOutgoing _
  | .removeIncoming _ | .removeOutgoing _ | .renameReference _ _ => True
  | _ => False

theorem stage_send {event : NodeEvent} (h : Edits event) (n : Node) :
    (n.send event).1.stage = n.stage := by
  cases event with
  | addIncoming name | removeIncoming name | addOutgoing name =>
    rw [send]
    split <;> rfl
  | setFields | resetFields | setMock | removeOutgoing | renameReference => rfl
  | _ => cases h

end Node

namespace TaskGraph

theorem map_updateFirst_of_forall {α β : Type} {found : α → Bool} {f : α → α} {h : α → β}
    (hf : ∀ a, h (f a) = h a) (l : List α) : (updateFirst found f l).map h = l.map h := by
  induction l with
  | nil => rfl
  | cons a l ih =>
    rw [updateFirst]
    split
    · rw [List.map_cons, List.map_cons, hf]
    · rw [List.map_cons, List.map_cons, ih]

def stages (g : TaskGraph) : List Node.Stage := g.nodes.map Node.stage

variable {g : TaskGraph}

theorem stages_updateNode {f : Node → Node} (hf : ∀ n, (f n).stage = n.stage) (g : TaskGraph)
    (id : String) : (g.updateNode id f).stages = g.stages := map_updateFirst_of_forall hf g.nodes

theorem stages_send {event : NodeEvent} (h : Node.Edits event) (g : TaskGraph) (id : String) :
    (g.send id event).2.stages = g.stages := by
  rw [send]
  split
  · rfl
  · exact stages_updateNode (Node.stage_send h) g id

theorem stages_change {f : Node → Node} (hf : ∀ n, (f n).stage = n.stage) (g : TaskGraph) (id : String) :
    (g.change id f).2.stages = g.stages := by
  rw [change]
  split
  · exact stages_updateNode hf g id
  · rfl

theorem stages_sendAll {messages : List (String × NodeEvent)} (h : ∀ m ∈ messages, Node.Edits m.2)
    (g : TaskGraph) : (sendAll messages g).2.stages = g.stages := by
  induction messages generalizing g with
  | nil => rfl
  | cons message rest ih =>
    have hsent := stages_send (h message List.mem_cons_self) g message.1
    rw [sendAll]
    cases hsend : g.send message.1 message.2 with
    | mk answer g' =>
      rw [hsend] at hsent
      cases answer with
      | error error => exact hsent
      | ok effect => exact (ih (fun m hm => h m (List.mem_cons_of_mem _ hm)) g').trans hsent

theorem stages_insertEdge (g : TaskGraph) (source target : Node) :
    (g.insertEdge source target).2.stages = g.stages := by
  have hedits : ∀ m ∈ [(source.id, NodeEvent.addOutgoing target.name), (target.id, .addIncoming source.name)],
      Node.Edits m.2 := by
    simp only [List.forall_mem_cons]
    exact ⟨trivial, trivial, nofun⟩
  exact stages_sendAll hedits _

theorem stages_connect (g : TaskGraph) (source target : String) :
    (g.connect source target).2.stages = g.stages := by
  rcases connect_cases g source target with ⟨error, hrefused⟩ | ⟨s, t, -, -, -, -, -, hput⟩
  · rw [hrefused]
  · rw [hput]
    exact stages_insertEdge g s t

theorem stages_dropEdges (id : String) (touching : List Edge) (g : TaskGraph) :
    (dropEdges id touching g).2.stages = g.stages := by
  induction touching generalizing g with
  | nil => rfl
  | cons edge rest ih =>
    have hedits : Node.Edits (if edge.source = id then (edge.target, NodeEvent.removeIncoming edge.sourceName)
        else (edge.source, .removeOutgoing edge.targetName)).2 := by
      split <;> exact trivial
    rw [dropEdges]
    -- Whichever end is told, the message is an edit.
    generalize (if edge.source = id then (edge.target, NodeEvent.removeIncoming edge.sourceName)
      else (edge.source, .removeOutgoing edge.targetName)) = message at hedits ⊢
    obtain ⟨other, event⟩ := message
    have hsent := stages_send hedits g other
    dsimp only
    cases hsend : g.send other event with
    | mk answer g' =>
      rw [hsend] at hsent
      cases answer with
      | error error => exact hsent
      | ok effect =>
        have hrest := ih g'
        dsimp only
        cases hdrop : dropEdges id rest g' with
        | mk answer g'' =>
          rw [hdrop] at hrest
          cases answer <;> exact hrest.trans hsent

theorem stages_delete (g : TaskGraph) (id : String) : (g.delete id).2.stages.Sublist g.stages := by
  rw [delete]
  cases hnode : g.node? id with
  | none => exact List.Sublist.refl _
  | some node =>
    have hdrop := stages_dropEdges id (g.edges.filter fun e => e.touches id)
      { g with
        nodes := g.nodes.eraseP fun n => n.id = id
        index := g.index.erase node.name
        edges := g.edges.filter fun e => !e.touches id }
    have herase : ((g.nodes.eraseP fun n => n.id = id).map Node.stage).Sublist g.stages :=
      List.eraseP_sublist.map Node.stage
    dsimp only
    split <;> rename_i heq <;> rw [heq] at hdrop <;> exact hdrop ▸ herase

theorem stages_disconnect (g : TaskGraph) (id : String) : (g.disconnect id).2.stages = g.stages := by
  rw [disconnect]
  split
  · rfl
  · next edge _ =>
    have hedits : ∀ m ∈ [(edge.source, NodeEvent.removeOutgoing edge.targetName),
        (edge.target, .removeIncoming edge.sourceName)], Node.Edits m.2 := by
      simp only [List.forall_mem_cons]
      exact ⟨trivial, trivial, List.forall_mem_nil _⟩
    exact stages_sendAll hedits _

theorem unnamed_rename (g : TaskGraph) (id new : String) (policy : RenamePolicy) :
    (g.rename id new policy).2.stages.map Node.Stage.unnamed = g.stages.map Node.Stage.unnamed := by
  have hfollow : ∀ old, ∀ n : Node,
      (if n.id = id then n else (n.send (.renameReference old new)).1).stage.unnamed = n.stage.unnamed := by
    intro old n
    split <;> rfl
  have htokens : ∀ old, ∀ n, (retargetTokens old new n).stage.unnamed = n.stage.unnamed := fun old n => rfl
  rw [rename]
  split
  · rfl
  · next node _ =>
    split
    · rfl
    · split
      · rfl
      · have hname : (g.notify id (.setName new)).nodes.map (fun n => n.stage.unnamed) =
            g.nodes.map fun n => n.stage.unnamed := by
          rw [notify, send]
          split
          · rfl
          · have hsent : ∀ n : Node, (n.send (.setName new)).1.stage.unnamed = n.stage.unnamed := fun _ => rfl
            exact map_updateFirst_of_forall (h := fun n => n.stage.unnamed) hsent g.nodes
        rw [stages, stages, List.map_map, List.map_map]
        refine Eq.trans ?_ hname
        cases policy with
        | keepTokens =>
          show ((g.notify id (.setName new)).nodes.map _).map _ = _
          rw [List.map_map]
          exact List.map_congr_left fun n _ => hfollow node.name n
        | retargetTokens =>
          show (((g.notify id (.setName new)).nodes.map _).map _).map _ = _
          rw [List.map_map, List.map_map]
          exact List.map_congr_left fun n _ => (htokens node.name _).trans (hfollow node.name n)

/-- The id that the next task gets. -/
def newId (g : TaskGraph) : String := "node_" ++ toString (g.nodesAdded + 1)

/-- A task that is added is idle. -/
theorem stages_addNamed (g : TaskGraph) (kind : TaskKind) (name : String) (position : Position)
    (attachment : Option Attachment) :
    (g.addNamed kind name position attachment).2.stages.Sublist (g.stages ++ [⟨g.newId, name, .idle, none⟩]) := by
  have hgrown : (g.nodes ++ [Node.fresh g.newId name kind position]).map Node.stage =
      g.stages ++ [⟨g.newId, name, .idle, none⟩] := List.map_append
  have hkept : g.stages.Sublist (g.stages ++ [⟨g.newId, name, .idle, none⟩]) := List.sublist_append_left _ _
  rw [addNamed]
  split
  · exact hkept
  · dsimp only
    split
    · exact (congrArg (List.Sublist · _) hgrown).mpr (List.Sublist.refl _)
    · split
      · exact hkept
      · split
        all_goals
          refine (congrArg (List.Sublist · _) ?_).mpr (List.Sublist.refl _)
          exact (stages_insertEdge _ _ _).trans hgrown

/-- An edit keeps the stages of the tasks that stay, and a new task is idle. -/
theorem stages_after (g : TaskGraph) {edit : Edit} (hreset : edit ≠ .resetAll)
    (hrename : ∀ id new policy, edit ≠ .rename id new policy) :
    ∃ name, (g.after edit).stages.Sublist (g.stages ++ [⟨g.newId, name, .idle, none⟩]) := by
  have hkept : ∀ {g' : TaskGraph}, g'.stages.Sublist g.stages →
      ∃ name, g'.stages.Sublist (g.stages ++ [⟨g.newId, name, .idle, none⟩]) := by
    intro g' hsub
    exact ⟨"", hsub.trans (List.sublist_append_left _ _)⟩
  have hsame : ∀ {g' : TaskGraph}, g'.stages = g.stages →
      ∃ name, g'.stages.Sublist (g.stages ++ [⟨g.newId, name, .idle, none⟩]) := by
    intro g' heq
    exact hkept (heq ▸ List.Sublist.refl _)
  cases edit with
  | add kind position attachment => exact ⟨g.nextName, stages_addNamed g kind g.nextName position attachment⟩
  | addNamed kind name position attachment => exact ⟨name, stages_addNamed g kind name position attachment⟩
  | connect source target => exact hsame (stages_connect g source target)
  | connectNamed source target =>
    refine hsame ?_
    show (g.connectNamed source target).2.stages = _
    rw [connectNamed]
    split
    · rfl
    · rfl
    · exact stages_connect g _ _
  | disconnect id => exact hsame (stages_disconnect g id)
  | rename id new policy => exact absurd rfl (hrename id new policy)
  | delete id => exact hkept (stages_delete g id)
  | replaceKind id kind =>
    exact hsame (stages_change (f := fun n => n.replaceKind kind) (fun _ => rfl) g id)
  | setFields id values =>
    exact hsame (stages_change (f := fun n => (n.send (.setFields values)).1) (fun _ => rfl) g id)
  | setMock id mock =>
    exact hsame (stages_change (f := fun n => (n.send (.setMock mock)).1) (fun _ => rfl) g id)
  | setPosition id position =>
    exact hsame (stages_change (f := fun n => { n with position }) (fun _ => rfl) g id)
  | resetAll => exact absurd rfl hreset

/-- A task behind an edit is new, or it is one of before that has its name and its request. -/
theorem mem_after (g : TaskGraph) {edit : Edit} (hreset : edit ≠ .resetAll)
    (hrename : ∀ id new policy, edit ≠ .rename id new policy) {n : Node} (hn : n ∈ (g.after edit).nodes) :
    (n.id = g.newId ∧ n.lastRequest = none) ∨
      ∃ m ∈ g.nodes, m.id = n.id ∧ m.name = n.name ∧ m.lastRequest = n.lastRequest := by
  obtain ⟨name, hsub⟩ := stages_after g hreset hrename
  have hstage : n.stage ∈ (g.after edit).stages := List.mem_map_of_mem hn
  rcases List.mem_append.1 (hsub.subset hstage) with hold | hnew
  · obtain ⟨m, hm, hsame⟩ := List.mem_map.1 hold
    obtain ⟨hid, hname, -, hrequest⟩ := Node.Stage.mk.inj hsame
    exact .inr ⟨m, hm, hid, hname, hrequest⟩
  · obtain ⟨hid, -, -, hrequest⟩ := Node.Stage.mk.inj (List.mem_singleton.1 hnew)
    exact .inl ⟨hid, hrequest⟩

theorem Sound.ne_newId {g : TaskGraph} (h : g.Sound) {n : Node} (hn : n ∈ g.nodes) : n.id ≠ g.newId := by
  intro heq
  have hnew : n.id = (g.newNode .http "" .origin).id := heq
  exact h.newNode_id_ne hn hnew

/-- Also a rename keeps all but the name. -/
theorem unnamed_after (g : TaskGraph) {edit : Edit} (hreset : edit ≠ .resetAll) :
    ((g.after edit).stages.map Node.Stage.unnamed).Sublist
      (g.stages.map Node.Stage.unnamed ++ [⟨g.newId, "", .idle, none⟩]) := by
  by_cases hrename : ∀ id new policy, edit ≠ .rename id new policy
  · obtain ⟨name, hsub⟩ := stages_after g hreset hrename
    have hunnamed := hsub.map Node.Stage.unnamed
    rwa [List.map_append] at hunnamed
  · simp only [not_forall, not_not] at hrename
    obtain ⟨id, new, policy, rfl⟩ := hrename
    rw [show g.after (.rename id new policy) = (g.rename id new policy).2 from rfl, unnamed_rename]
    exact List.sublist_append_left _ _

/-- No task gets into a state but idle by edits. -/
theorem state_of_mem_after (g : TaskGraph) (edit : Edit) {n : Node} (hn : n ∈ (g.after edit).nodes) :
    n.state = .idle ∨ ∃ m ∈ g.nodes, m.state = n.state := by
  by_cases hreset : edit = .resetAll
  · subst hreset
    obtain ⟨m, -, rfl⟩ := List.mem_map.1 hn
    exact .inl rfl
  · have hstage : n.stage.unnamed ∈ (g.after edit).stages.map Node.Stage.unnamed :=
      List.mem_map_of_mem (List.mem_map_of_mem hn)
    rcases List.mem_append.1 ((unnamed_after g hreset).subset hstage) with hold | hnew
    · rw [stages, List.map_map] at hold
      obtain ⟨m, hm, hsame⟩ := List.mem_map.1 hold
      exact .inr ⟨m, hm, congrArg Node.Stage.state hsame⟩
    · exact .inl (congrArg Node.Stage.state (List.mem_singleton.1 hnew))

/-- Every task of a graph that has only been edited is idle. -/
theorem Built.idle {g : TaskGraph} (h : g.Built) : ∀ n ∈ g.nodes, n.state = .idle := by
  obtain ⟨edits, rfl⟩ := h
  have hall : ∀ (edits : List Edit) (g : TaskGraph), (∀ n ∈ g.nodes, n.state = .idle) →
      ∀ n ∈ (g.afterAll edits).nodes, n.state = .idle := by
    intro edits
    induction edits with
    | nil => exact fun g hg => hg
    | cons edit edits ih =>
      refine fun g hg => ih (g.after edit) fun n hn => ?_
      obtain hidle | ⟨m, hm, hsame⟩ := g.state_of_mem_after edit hn
      · exact hidle
      · exact hsame ▸ hg m hm
  exact hall edits empty fun n hn => (List.not_mem_nil hn).elim

end TaskGraph
end JobPipeline
