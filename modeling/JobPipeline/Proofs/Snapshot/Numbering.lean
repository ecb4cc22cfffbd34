import JobPipeline.Proofs.Number.Digits
import JobPipeline.Proofs.Snapshot.Restoring

/-
No id is given twice.

A new id carries the next number of its series, and no counter is ever set back: edits
only raise it, and a restored graph takes up the counter that was captured.  So a new id
differs from all that were given, whatever has become of them.  It also differs from all
that are there, since restoring raises the counters above every id that a counter could
come to.

Nothing else is asked of the graph.  A snapshot written by hand may bring ids that occur
twice, edges that close cycles and names that cannot be given, and edits go on from there.
-/
namespace JobPipeline

/-- The two kinds of ids that a graph gives. -/
inductive Series where
  | tasks
  | edges

namespace Series

def mark : Series → String
  | tasks => "node_"
  | edges => "edge_"

def ids : Series → TaskGraph → List String
  | tasks, g => g.nodes.map Node.id
  | edges, g => g.edges.map Edge.id

/-- The number of the id that was given last. -/
def count : Series → TaskGraph → Nat
  | tasks, g => g.nodesAdded
  | edges, g => g.edgesAdded

def id (series : Series) (k : Nat) : String := series.mark ++ toString k

/-- The id that an edit answers with as a new one. -/
def given? : Series → TaskGraph → Edit → Option String
  | tasks, g, .add kind position attachment => (g.add kind position attachment).1.toOption
  | tasks, g, .addNamed kind name position attachment =>
    (g.addNamed kind name position attachment).1.toOption
  | edges, g, .connect source target => (g.connect source target).1.toOption
  | edges, g, .connectNamed source target => (g.connectNamed source target).1.toOption
  | _, _, _ => none

/-- No id in the graph is one that the counter has still to come to. -/
def Covers (series : Series) (g : TaskGraph) : Prop :=
  ∀ k, k ≤ Numeral.most64 → series.id k ∈ series.ids g → k ≤ series.count g

variable {series : Series}

theorem id_inj {j k : Nat} (h : series.id j = series.id k) : j = k := toString_inj_of_append h

end Series

namespace TaskGraph

/-- A graph behind another: its counters are not behind, and its ids are old or are those
that the counters have come to. -/
def Continues (g g' : TaskGraph) : Prop :=
  ∀ series : Series, series.count g ≤ series.count g' ∧
    ∀ id ∈ series.ids g', id ∈ series.ids g ∨
      ∃ k, series.count g < k ∧ k ≤ series.count g' ∧ id = series.id k

namespace Continues

variable {g g' g'' : TaskGraph}

theorem refl (g : TaskGraph) : g.Continues g := fun _ => ⟨Nat.le_refl _, fun _ hid => .inl hid⟩

theorem trans (h : g.Continues g') (h' : g'.Continues g'') : g.Continues g'' := by
  intro series
  obtain ⟨hcount, hids⟩ := h series
  obtain ⟨hcount', hids'⟩ := h' series
  refine ⟨Nat.le_trans hcount hcount', fun id hid => ?_⟩
  rcases hids' id hid with hold | ⟨k, hlow, hhigh, rfl⟩
  · rcases hids id hold with hold | ⟨k, hlow, hhigh, rfl⟩
    · exact .inl hold
    · exact .inr ⟨k, hlow, Nat.le_trans hhigh hcount', rfl⟩
  · exact .inr ⟨k, Nat.lt_of_le_of_lt hcount hlow, hhigh, rfl⟩

/-- A graph that has lost some ids at most, and no counter. -/
theorem of_subset (hnodes : g'.nodes.map Node.id ⊆ g.nodes.map Node.id)
    (hedges : g'.edges.map Edge.id ⊆ g.edges.map Edge.id) (hnodesAdded : g.nodesAdded ≤ g'.nodesAdded)
    (hedgesAdded : g.edgesAdded ≤ g'.edgesAdded) : g.Continues g' := by
  intro series
  cases series with
  | tasks => exact ⟨hnodesAdded, fun id hid => .inl (hnodes hid)⟩
  | edges => exact ⟨hedgesAdded, fun id hid => .inl (hedges hid)⟩

theorem of_eq (hnodes : g'.nodes.map Node.id = g.nodes.map Node.id)
    (hedges : g'.edges.map Edge.id = g.edges.map Edge.id) (hnodesAdded : g.nodesAdded ≤ g'.nodesAdded)
    (hedgesAdded : g.edgesAdded ≤ g'.edgesAdded) : g.Continues g' :=
  of_subset (fun _ hid => hnodes ▸ hid) (fun _ hid => hedges ▸ hid) hnodesAdded hedgesAdded

theorem covers (h : g.Continues g') {series : Series} (hg : series.Covers g) : series.Covers g' := by
  intro k hk hid
  obtain ⟨hcount, hids⟩ := h series
  rcases hids _ hid with hold | ⟨j, -, hj, heq⟩
  · exact Nat.le_trans (hg k hk hold) hcount
  · rw [Series.id_inj heq]
    exact hj

end Continues

/-! ## Edits -/

variable {g : TaskGraph}

theorem continues_updateNode (g : TaskGraph) (id : String) {f : Node → Node} (hf : ∀ n, (f n).id = n.id) :
    g.Continues (g.updateNode id f) :=
  .of_eq (ids_updateFirst _ hf g.nodes) rfl (Nat.le_refl _) (Nat.le_refl _)

theorem continues_send (g : TaskGraph) (id : String) (event : NodeEvent) :
    g.Continues (g.send id event).2 := by
  rw [send]
  split
  · exact .refl g
  · exact continues_updateNode g id fun n => n.send_id event

theorem continues_sendAll (messages : List (String × NodeEvent)) (g : TaskGraph) :
    g.Continues (sendAll messages g).2 := by
  induction messages generalizing g with
  | nil => exact .refl g
  | cons message rest ih =>
    have hsent := continues_send g message.1 message.2
    rw [sendAll]
    split
    · next hsend =>
      rw [hsend] at hsent
      exact hsent
    · next hsend =>
      rw [hsend] at hsent
      exact hsent.trans (ih _)

theorem continues_change (g : TaskGraph) (id : String) {f : Node → Node} (hf : ∀ n, (f n).id = n.id) :
    g.Continues (g.change id f).2 := by
  rw [change]
  split
  · exact continues_updateNode g id hf
  · exact .refl g

/-- An edge more, before its ends are told. -/
theorem continues_newEdge (g : TaskGraph) (s t : Node) :
    g.Continues { g with edges := g.edges ++ [g.newEdge s t], edgesAdded := g.edgesAdded + 1 } := by
  intro series
  cases series with
  | tasks => exact ⟨Nat.le_refl _, fun id hid => .inl hid⟩
  | edges =>
    refine ⟨Nat.le_succ _, fun id hid => ?_⟩
    rw [Series.ids, List.map_append] at hid
    rcases List.mem_append.1 hid with hold | hnew
    · exact .inl hold
    · exact .inr ⟨g.edgesAdded + 1, Nat.lt_succ_self _, Nat.le_refl _, List.mem_singleton.1 hnew⟩

theorem continues_insertEdge (g : TaskGraph) (s t : Node) : g.Continues (g.insertEdge s t).2 :=
  (continues_newEdge g s t).trans
    (continues_sendAll [(s.id, .addOutgoing t.name), (t.id, .addIncoming s.name)] _)

theorem continues_grown (g : TaskGraph) (kind : TaskKind) (name : String) (position : Position) :
    g.Continues (g.grown kind name position) := by
  intro series
  cases series with
  | tasks =>
    refine ⟨Nat.le_succ _, fun id hid => ?_⟩
    rw [Series.ids, grown, List.map_append] at hid
    rcases List.mem_append.1 hid with hold | hnew
    · exact .inl hold
    · exact .inr ⟨g.nodesAdded + 1, Nat.lt_succ_self _, Nat.le_refl _, List.mem_singleton.1 hnew⟩
  | edges => exact ⟨Nat.le_refl _, fun id hid => .inl hid⟩

/-- A task is refused, or it is added under the next id and perhaps connected. -/
theorem addNamed_cases (g : TaskGraph) (kind : TaskKind) (name : String) (position : Position)
    (attachment : Option Attachment) :
    (∃ error, g.addNamed kind name position attachment = (.error error, g)) ∨
      ∃ answer g', g.addNamed kind name position attachment = (answer, g') ∧
        (g.grown kind name position).Continues g' ∧
        ∀ id, answer = .ok id → id = Series.tasks.id (g.nodesAdded + 1) := by
  rw [addNamed]
  cases g.nameError? name none with
  | some error => exact .inl ⟨error, rfl⟩
  | none =>
    cases attachment with
    | none => exact .inr ⟨_, _, rfl, .refl _, fun id hid => (Except.ok.inj hid).symm⟩
    | some a =>
      cases hneighbour : g.node? a.neighbour with
      | none =>
        refine .inl ⟨.unknownNode a.neighbour, ?_⟩
        simp only [hneighbour]
      | some neighbour =>
        have hanswer : ∀ answer : Except JobError String, ∀ id,
            (answer.map fun _ => (g.newNode kind name position).id) = .ok id →
            id = Series.tasks.id (g.nodesAdded + 1) := by
          intro answer id hid
          cases answer with
          | error error => cases hid
          | ok edge => exact (Except.ok.inj hid).symm
        simp only [hneighbour]
        cases a.role with
        | source => exact .inr ⟨_, _, rfl, continues_insertEdge _ _ _, hanswer _⟩
        | target => exact .inr ⟨_, _, rfl, continues_insertEdge _ _ _, hanswer _⟩

/-- Two tasks are not connected, or by an edge with the next id. -/
theorem connect_inserts (g : TaskGraph) (source target : String) :
    (∃ error, g.connect source target = (.error error, g)) ∨
      ∃ s t, g.connect source target = g.insertEdge s t :=
  (connect_cases g source target).imp_right fun ⟨s, t, _, _, _, _, _, hput⟩ => ⟨s, t, hput⟩

theorem connectNamed_inserts (g : TaskGraph) (source target : String) :
    (∃ error, g.connectNamed source target = (.error error, g)) ∨
      ∃ s t, g.connectNamed source target = g.insertEdge s t := by
  rw [connectNamed]
  split
  · exact .inl ⟨_, rfl⟩
  · exact .inl ⟨_, rfl⟩
  · exact connect_inserts g _ _

theorem continues_dropEdges (id : String) (lost : List Edge) (g : TaskGraph) :
    g.Continues (dropEdges id lost g).2 := by
  induction lost generalizing g with
  | nil => exact .refl g
  | cons e lost ih =>
    rw [dropEdges]
    split
    next other event _ =>
    have hsent := continues_send g other event
    split
    · next hsend =>
      rw [hsend] at hsent
      exact hsent
    · next hsend =>
      rw [hsend] at hsent
      have hrest := hsent.trans (ih _)
      split
      · next hdrop =>
        rw [hdrop] at hrest
        exact hrest
      · next hdrop =>
        rw [hdrop] at hrest
        exact hrest

theorem continues_delete (g : TaskGraph) (id : String) : g.Continues (g.delete id).2 := by
  rw [delete]
  split
  · exact .refl g
  · next node _ =>
    have hrest : g.Continues { g with
        nodes := g.nodes.eraseP fun n => n.id = id
        index := g.index.erase node.name
        edges := g.edges.filter fun e => !e.touches id } :=
      .of_subset (List.map_subset _ List.eraseP_subset) (List.map_subset _ (List.filter_subset_self _))
        (Nat.le_refl _) (Nat.le_refl _)
    have hall := hrest.trans (continues_dropEdges id (g.edges.filter fun e => e.touches id) _)
    dsimp only
    split
    · next hdrop =>
      rw [hdrop] at hall
      exact hall
    · next hdrop =>
      rw [hdrop] at hall
      exact hall

theorem continues_disconnect (g : TaskGraph) (id : String) : g.Continues (g.disconnect id).2 := by
  rw [disconnect]
  split
  · exact .refl g
  · have hrest : g.Continues { g with edges := g.edges.eraseP fun e => e.id = id } :=
      .of_subset (List.Subset.refl _) (List.map_subset _ List.eraseP_subset) (Nat.le_refl _) (Nat.le_refl _)
    exact hrest.trans (continues_sendAll _ _)

theorem continues_rename (g : TaskGraph) (id new : String) (policy : RenamePolicy) :
    g.Continues (g.rename id new policy).2 := by
  rw [rename]
  split
  · exact .refl g
  · next node _ =>
    split
    · exact .refl g
    · split
      · exact .refl g
      · refine (continues_send g id (.setName new)).trans ?_
        have hfollow : ∀ n : Node,
            (if n.id = id then n else (n.send (.renameReference node.name new)).1).id = n.id := by
          intro n
          split <;> rfl
        have hedges : ((g.send id (.setName new)).2.edges.map fun e => e.renamed id new).map Edge.id =
            (g.send id (.setName new)).2.edges.map Edge.id := by
          rw [List.map_map]
          rfl
        refine .of_eq ?_ hedges (Nat.le_refl _) (Nat.le_refl _)
        have hids := ids_map hfollow (g.send id (.setName new)).2.nodes
        cases policy with
        | keepTokens => exact hids
        | retargetTokens => exact (ids_map (f := retargetTokens node.name new) (fun _ => rfl) _).trans hids

/-- Whatever graph it is made on, an edit sets no counter back and takes no id but the next. -/
theorem continues_after (g : TaskGraph) (edit : Edit) : g.Continues (g.after edit) := by
  have hadd : ∀ kind name position attachment,
      g.Continues (g.addNamed kind name position attachment).2 := by
    intro kind name position attachment
    rcases addNamed_cases g kind name position attachment with ⟨_, h⟩ | ⟨_, g', h, hgrown, -⟩
    · rw [h]
      exact .refl g
    · rw [h]
      exact (continues_grown g kind name position).trans hgrown
  have hconnect : ∀ {edited : Edited String}, ((∃ error, edited = (.error error, g)) ∨
      ∃ s t, edited = g.insertEdge s t) → g.Continues edited.2 := by
    rintro edited (⟨_, rfl⟩ | ⟨s, t, rfl⟩)
    · exact .refl g
    · exact continues_insertEdge g s t
  cases edit with
  | add kind position attachment => exact hadd kind g.nextName position attachment
  | addNamed kind name position attachment => exact hadd kind name position attachment
  | connect source target => exact hconnect (connect_inserts g source target)
  | connectNamed source target => exact hconnect (connectNamed_inserts g source target)
  | disconnect id => exact continues_disconnect g id
  | rename id new policy => exact continues_rename g id new policy
  | delete id => exact continues_delete g id
  | replaceKind id kind => exact continues_change g id fun _ => rfl
  | setFields id values => exact continues_change g id fun _ => rfl
  | setMock id mock => exact continues_change g id fun _ => rfl
  | setPosition id position => exact continues_change g id fun _ => rfl
  | resetAll =>
    have hids := ids_map (f := fun n => (n.send .reset).1) (fun _ => rfl) g.nodes
    exact .of_eq hids rfl (Nat.le_refl _) (Nat.le_refl _)

/-- A new id is the next of its series, and the counter has come to it. -/
theorem given_eq {series : Series} {edit : Edit} {id : String} (h : series.given? g edit = some id) :
    id = series.id (series.count g + 1) ∧ series.count g + 1 ≤ series.count (g.after edit) := by
  have hadd : ∀ {kind name position attachment},
      (g.addNamed kind name position attachment).1.toOption = some id →
      id = Series.tasks.id (g.nodesAdded + 1) ∧
        g.nodesAdded + 1 ≤ (g.addNamed kind name position attachment).2.nodesAdded := by
    intro kind name position attachment h
    rcases addNamed_cases g kind name position attachment with ⟨_, heq⟩ | ⟨answer, g', heq, hgrown, hid⟩
    · rw [heq] at h
      cases h
    · rw [heq] at h ⊢
      cases answer with
      | error error => cases h
      | ok new =>
        cases h
        exact ⟨hid _ rfl, (hgrown .tasks).1⟩
  have hconnect : ∀ {edited : Edited String}, ((∃ error, edited = (.error error, g)) ∨
      ∃ s t, edited = g.insertEdge s t) → edited.1.toOption = some id →
      id = Series.edges.id (g.edgesAdded + 1) ∧ g.edgesAdded + 1 ≤ edited.2.edgesAdded := by
    rintro edited (⟨_, rfl⟩ | ⟨s, t, rfl⟩) h
    · cases h
    · have htold := continues_sendAll [(s.id, .addOutgoing t.name), (t.id, .addIncoming s.name)]
        { g with edges := g.edges ++ [g.newEdge s t], edgesAdded := g.edgesAdded + 1 }
      refine ⟨?_, (htold .edges).1⟩
      simp only [insertEdge] at h
      revert h
      cases (sendAll [(s.id, NodeEvent.addOutgoing t.name), (t.id, .addIncoming s.name)] _).1 with
      | error error => exact fun h => nomatch h
      | ok _ => exact fun h => (Option.some.inj h).symm
  cases series with
  | tasks =>
    cases edit with
    | add => exact hadd h
    | addNamed => exact hadd h
    | _ => cases h
  | edges =>
    cases edit with
    | connect source target => exact hconnect (connect_inserts g source target) h
    | connectNamed source target => exact hconnect (connectNamed_inserts g source target) h
    | _ => cases h

/-! ## Capturing and restoring -/

theorem le_foldl_max {numbers : List Nat} {start n : Nat} (h : n ∈ numbers ∨ n ≤ start) :
    n ≤ numbers.foldl max start := by
  induction numbers generalizing start with
  | nil => simpa using h
  | cons m numbers ih =>
    refine ih ?_
    rcases h with h | h
    · rcases List.mem_cons.1 h with rfl | h
      · exact .inr (Nat.le_max_right start n)
      · exact .inl h
    · exact .inr (Nat.le_trans h (Nat.le_max_left start m))

/-- The largest suffix is not behind any id that a counter can come to. -/
theorem le_mostSuffix {mark : String} {ids : List String} {k : Nat} (hk : k ≤ Numeral.most64)
    (h : mark ++ toString k ∈ ids) : k ≤ mostSuffix mark ids := by
  refine le_foldl_max (.inl (List.mem_filterMap.2 ⟨_, h, ?_⟩))
  have hmark : Text.afterMark? mark.toList (mark ++ toString k).toList = some (toString k).toList := by
    rw [Text.afterMark?_eq_some, String.toList_append]
  rw [hmark, Option.bind_some, String.ofList_toList]
  exact Numeral.natural?_toString hk

end TaskGraph

theorem Snapshot.Restored.covers {s : Snapshot} {job : Job} (h : s.Restored job) (series : Series) :
    series.Covers job.graph := by
  intro k hk hid
  cases series with
  | tasks =>
    have hid' : "node_" ++ toString k ∈ s.nodes.map NodeSnapshot.id := h.ids ▸ hid
    show k ≤ job.graph.nodesAdded
    rw [h.nodesAdded]
    exact Nat.le_trans (TaskGraph.le_mostSuffix hk hid') (Nat.le_max_right ..)
  | edges =>
    have hid' : "edge_" ++ toString k ∈ s.edges.map Edge.id := h.edgeIds ▸ hid
    show k ≤ job.graph.edgesAdded
    rw [h.edgesAdded]
    exact Nat.le_trans (TaskGraph.le_mostSuffix hk hid') (Nat.le_max_right ..)

theorem Snapshot.continues_restore {job job' : Job} (h : (capture job).restore = .ok job') :
    job.graph.Continues job'.graph := by
  have hr := restored h
  have hids : (capture job).nodes.map NodeSnapshot.id = job.graph.nodes.map Node.id := by
    rw [capture, List.map_map]
    rfl
  refine .of_eq (hr.ids.trans hids) hr.edgeIds ?_ ?_
  · rw [hr.nodesAdded]
    exact Nat.le_max_left ..
  · rw [hr.edgesAdded]
    exact Nat.le_max_left ..

/-! ## Whole runs -/

/-- What may happen to the graph of a job: an edit, an event for one of its tasks, or its
replacement by what restoring its capture gives. -/
inductive Turn where
  | edit (edit : Edit)
  | send (id : String) (event : NodeEvent)
  | reload

namespace Job

def turned (job : Job) : Turn → Job
  | .edit edit => { job with graph := job.graph.after edit }
  | .send id event => { job with graph := (job.graph.send id event).2 }
  | .reload =>
    match (Snapshot.capture job).restore with
    | .ok job => job
    | .error _ => job

def turnedAll (job : Job) (run : List Turn) : Job := run.foldl turned job

theorem turnedAll_append (job : Job) (front back : List Turn) :
    job.turnedAll (front ++ back) = (job.turnedAll front).turnedAll back := List.foldl_append

theorem continues_turned (job : Job) (turn : Turn) : job.graph.Continues (job.turned turn).graph := by
  cases turn with
  | edit edit => exact job.graph.continues_after edit
  | send id event => exact job.graph.continues_send id event
  | reload =>
    rw [turned]
    split
    · next h => exact Snapshot.continues_restore h
    · exact .refl job.graph

theorem continues_turnedAll (job : Job) (run : List Turn) :
    job.graph.Continues (job.turnedAll run).graph := by
  induction run generalizing job with
  | nil => exact .refl job.graph
  | cons turn run ih => exact (job.continues_turned turn).trans (ih (job.turned turn))

end Job

namespace Series

variable {series : Series}

/-- The new id that a turn answers with. -/
def givenBy? (series : Series) (job : Job) : Turn → Option String
  | .edit edit => series.given? job.graph edit
  | _ => none

/-- The new ids that a run answers with, in their order. -/
def givenIn (series : Series) : Job → List Turn → List String
  | _, [] => []
  | job, turn :: run => (series.givenBy? job turn).toList ++ series.givenIn (job.turned turn) run

theorem givenBy_eq {job : Job} {turn : Turn} {id : String} (h : series.givenBy? job turn = some id) :
    id = series.id (series.count job.graph + 1) ∧
      series.count job.graph + 1 ≤ series.count (job.turned turn).graph := by
  cases turn with
  | edit edit => exact TaskGraph.given_eq h
  | _ => cases h

/-- The counter has passed all ids that were given. -/
theorem exists_of_mem_givenIn {job : Job} {run : List Turn} {id : String} (h : id ∈ series.givenIn job run) :
    ∃ k, k ≤ series.count (job.turnedAll run).graph ∧ id = series.id k := by
  induction run generalizing job with
  | nil => cases h
  | cons turn run ih =>
    rcases List.mem_append.1 h with h | h
    · obtain ⟨rfl, hcount⟩ := givenBy_eq (Option.mem_toList.1 h)
      exact ⟨_, Nat.le_trans hcount (Job.continues_turnedAll (job.turned turn) run series).1, rfl⟩
    · exact ih h

/-- An id that is given anew was not given before, and is in none of the graphs that the
run has passed, the first among them. -/
theorem given_unseen {start : Job}
    (hstart : start.graph = TaskGraph.empty ∨ ∃ s : Snapshot, s.restore = .ok start) (series : Series)
    (run : List Turn) (turn : Turn) (hroom : series.count (start.turnedAll run).graph < Numeral.most64)
    {id : String} (hid : series.givenBy? (start.turnedAll run) turn = some id) :
    id ∉ series.givenIn start run ∧
      ∀ front, front <+: run → id ∉ series.ids (start.turnedAll front).graph := by
  obtain ⟨rfl, -⟩ := givenBy_eq hid
  have hcovers : series.Covers start.graph := by
    rcases hstart with hempty | ⟨s, hs⟩
    · intro k _ hmem
      rw [hempty] at hmem
      cases series <;> cases hmem
    · exact (Snapshot.restored hs).covers series
  refine ⟨fun hgiven => ?_, ?_⟩
  · obtain ⟨k, hk, heq⟩ := exists_of_mem_givenIn hgiven
    have := id_inj heq
    omega
  · rintro front ⟨back, rfl⟩ hmem
    have hfront := (Job.continues_turnedAll start front).covers hcovers
    have hpassed := hfront _ hroom hmem
    have hback := (Job.continues_turnedAll (start.turnedAll front) back series).1
    rw [← Job.turnedAll_append] at hback
    omega

/-- Two tasks of one id, a third under a number with a zero in front, a loop, and counters
that are behind all of them. -/
def untidySnapshot : Snapshot :=
  { format := Snapshot.currentFormat
    config := JobConfig.ofType .webhook
    nodes := [⟨"node_7", "a", .any, Dict.empty, Mock.off, Position.origin⟩,
      ⟨"node_7", "b", .any, Dict.empty, Mock.off, Position.origin⟩,
      ⟨"node_08", "c", .any, Dict.empty, Mock.off, Position.origin⟩]
    edges := [⟨"edge_4", "node_7", "node_7", "a", "a"⟩]
    counters := ⟨1, 0⟩ }

def untidyJob : Job :=
  match untidySnapshot.restore with
  | .ok job => job
  | .error _ => ⟨JobConfig.ofType .webhook, TaskGraph.empty⟩

/-- A task is added and deleted, and the job is captured and restored. -/
def untidyRun : List Turn :=
  [.edit (.add .http .origin (some ⟨"node_08", .target⟩)), .edit (.delete "node_9"), .reload]

theorem given_unseen_untidySnapshot :
    untidySnapshot.restore = .ok untidyJob ∧
      tasks.ids (untidyJob.turnedAll untidyRun).graph = tasks.ids untidyJob.graph ∧
      tasks.givenIn untidyJob untidyRun = ["node_9"] ∧
      tasks.givenBy? (untidyJob.turnedAll untidyRun) (.edit (.add .sum .origin none)) = some "node_10" ∧
      "node_10" ∉ tasks.givenIn untidyJob untidyRun ∧
      ∀ front, front <+: untidyRun → "node_10" ∉ tasks.ids (untidyJob.turnedAll front).graph := by
  have hrestore : untidySnapshot.restore = .ok untidyJob := by decide +kernel
  have hgiven : tasks.givenBy? (untidyJob.turnedAll untidyRun) (.edit (.add .sum .origin none)) =
      some "node_10" := by decide +kernel
  have hroom : tasks.count (untidyJob.turnedAll untidyRun).graph < Numeral.most64 := by decide +kernel
  obtain ⟨hnew, hunseen⟩ := given_unseen (.inr ⟨untidySnapshot, hrestore⟩) tasks untidyRun
    (.edit (.add .sum .origin none)) hroom hgiven
  exact ⟨hrestore, by decide +kernel, by decide +kernel, hgiven, hnew, hunseen⟩

end Series
end JobPipeline
