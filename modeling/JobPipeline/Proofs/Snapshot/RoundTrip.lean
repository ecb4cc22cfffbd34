import JobPipeline.Proofs.Number.Digits
import JobPipeline.Proofs.Simulation.Worked
import JobPipeline.Proofs.Snapshot.Restoring

/-
A job that is captured and restored is the job again, with every task idle.

A snapshot leaves out the index and the lists of neighbours, and it could hold counters
that are behind its ids.  In a sound graph the one is what the tasks and edges say, and the
others are not behind.
-/
namespace JobPipeline

namespace TaskGraph

/-! ## Counters -/

theorem foldl_max_le {numbers : List Nat} {start most : Nat} (hstart : start ≤ most)
    (h : ∀ n ∈ numbers, n ≤ most) : numbers.foldl max start ≤ most := by
  induction numbers generalizing start with
  | nil => exact hstart
  | cons n numbers ih =>
    exact ih (Nat.max_le.2 ⟨hstart, h n List.mem_cons_self⟩) fun m hm => h m (List.mem_cons_of_mem n hm)

/-- Ids that a counter has given out do not move it. -/
theorem mostSuffix_le {mark : String} {ids : List String} {most : Nat}
    (h : ∀ id ∈ ids, ∃ k, k ≤ most ∧ id = mark ++ toString k) : mostSuffix mark ids ≤ most := by
  refine foldl_max_le (Nat.zero_le most) fun n hn => ?_
  obtain ⟨id, hid, hread⟩ := List.mem_filterMap.1 hn
  obtain ⟨k, hk, rfl⟩ := h id hid
  have hmark : Text.afterMark? mark.toList (mark ++ toString k).toList = some (toString k).toList := by
    rw [Text.afterMark?_eq_some, String.toList_append]
  rw [hmark, Option.bind_some, String.ofList_toList] at hread
  rw [Numeral.eq_of_natural?_toString hread]
  exact hk

end TaskGraph

namespace Snapshot

variable {job : Job}

/-! ## Restoring what was captured -/

theorem nameOf?_eq {nodes : List Node} (h : (nodes.map Node.id).Nodup) {n : Node} (hn : n ∈ nodes) :
    nameOf? nodes n.id = some n.name := by
  obtain ⟨m, hm, hid, hname⟩ := exists_nameOf? (List.mem_map_of_mem hn)
  rw [hname, TaskGraph.eq_of_id_eq h hm hn hid]

theorem tasks_capture (job : Job) :
    (capture job).tasks = job.graph.nodes.map fun n => (NodeSnapshot.of n).restore := by
  rw [tasks, capture, List.map_map]
  rfl

/-- The edges have the names of their tasks already. -/
theorem drawn_capture (h : job.graph.WellFormed) : (capture job).drawn = job.graph.edges := by
  have hnames : nameOf? (capture job).tasks = nameOf? job.graph.nodes := by
    rw [tasks_capture]
    exact nameOf?_map (f := fun n => (NodeSnapshot.of n).restore) (fun _ => rfl) (fun _ => rfl) job.graph.nodes
  have htitled : ∀ e ∈ job.graph.edges, titled (capture job).tasks e = e := by
    intro e he
    obtain ⟨m, hm, hmid, hsource⟩ := h.sources e he
    obtain ⟨n, hn, hnid, htarget⟩ := h.targets e he
    rw [titled, hnames, ← hmid, ← hnid, nameOf?_eq h.nodeIds hm, nameOf?_eq h.nodeIds hn]
    simp only [hsource, htarget, hmid, hnid]
  show job.graph.edges.map (titled (capture job).tasks) = _
  rw [List.map_congr_left htitled, List.map_id']

theorem Restored.nodes_capture {job' : Job} (hr : (capture job).Restored job') (h : job.graph.WellFormed) :
    job'.graph.nodes = job.graph.resetAll.nodes := by
  rw [hr.nodes, tasks_capture, drawn_capture h, List.map_map]
  refine List.map_congr_left fun n hn => ?_
  have hin := h.mirrored.incoming n hn
  have hout := h.mirrored.outgoing n hn
  simp only [Function.comp_apply, Node.linked, NodeSnapshot.restore, NodeSnapshot.of, Node.fresh, Node.send,
    ← hin, ← hout]

theorem restore_capture (h : job.graph.Sound) :
    (capture job).restore = .ok { job with graph := job.graph.resetAll } := by
  have hw := h.wellFormed
  have hids : (capture job).nodes.map NodeSnapshot.id = job.graph.nodes.map Node.id := by
    rw [capture, List.map_map]
    rfl
  have hnames : (capture job).nodes.map NodeSnapshot.name = job.graph.nodes.map Node.name := by
    rw [capture, List.map_map]
    rfl
  obtain ⟨job', hjob'⟩ := exists_restore (s := capture job) (hnames ▸ hw.names) fun e he => by
    rw [hids]
    exact (h.anchored.ends e he).2
  have hr := restored hjob'
  have hnodes := hr.nodes_capture hw
  have hedges : job'.graph.edges = job.graph.edges := hr.edges.trans (drawn_capture hw)
  have hindex : job'.graph.index = job.graph.index := by
    refine Dict.eq_of_find? fun name => Option.ext fun id => ?_
    have hkept : job.graph.resetAll.WellFormed := (h.of_form (TaskGraph.form_resetAll job.graph)).wellFormed
    show job'.graph.idOf? name = some id ↔ job.graph.resetAll.idOf? name = some id
    rw [hr.indexed, hkept.indexed, hnodes]
  have hnodesAdded : job'.graph.nodesAdded = job.graph.nodesAdded := by
    rw [hr.nodesAdded, hids]
    refine Nat.max_eq_left (TaskGraph.mostSuffix_le fun id hid => ?_)
    obtain ⟨n, hn, rfl⟩ := List.mem_map.1 hid
    exact h.numbered.nodes n hn
  have hedgesAdded : job'.graph.edgesAdded = job.graph.edgesAdded := by
    rw [hr.edgesAdded]
    refine Nat.max_eq_left (TaskGraph.mostSuffix_le fun id hid => ?_)
    obtain ⟨e, he, rfl⟩ := List.mem_map.1 hid
    exact h.numbered.edges e he
  have hconfig : job'.config = job.config := hr.config
  obtain ⟨config, nodes, edges, index, nodesAdded, edgesAdded⟩ := job'
  subst hconfig hnodes hedges hindex hnodesAdded hedgesAdded
  exact hjob'

/-- Capturing keeps nothing of what a reset drops. -/
theorem capture_resetAll (job : Job) :
    capture { job with graph := job.graph.resetAll } = capture job := by
  rw [capture, capture]
  simp only [TaskGraph.resetAll, List.map_map]
  rfl

theorem restore_capture_of_worked (h : job.graph.Worked) :
    (capture job).restore = .ok { job with graph := job.graph.resetAll } ∧
      ({ job with graph := job.graph.resetAll } : Job).compile = job.compile ∧
      capture { job with graph := job.graph.resetAll } = capture job :=
  ⟨restore_capture h.sound, TaskGraph.compile_of_form rfl (TaskGraph.form_resetAll job.graph),
    capture_resetAll job⟩

/-- A plan of one task, whatever the text, and nobody to evaluate it. -/
def stalled : Services Unit where
  plan := fun _ => .ok ⟨[⟨"fetch", []⟩]⟩
  evaluate := fun _ state => (.ok (.ofError "down"), state)

/-- A renamed task with a neighbour, which waits for a decision on its side effect. -/
def waitingJob : Job :=
  let graph := TaskGraph.empty.afterAll [.add .http .origin none,
    .addNamed .jsonParse "parse" .origin (some ⟨"node_1", .target⟩),
    .rename "node_1" "fetch" .retargetTokens]
  ((⟨Walk.start, ⟨JobConfig.ofType .cron, graph⟩, (), []⟩ : Simulation Unit).after stalled
    [.enter "exec-1", .run]).job

theorem restore_capture_of_worked_waitingJob :
    waitingJob.graph.Worked ∧ waitingJob.graph.resetAll ≠ waitingJob.graph ∧
      (capture waitingJob).restore = .ok { waitingJob with graph := waitingJob.graph.resetAll } ∧
      ({ waitingJob with graph := waitingJob.graph.resetAll } : Job).compile = waitingJob.compile := by
  have hworked : waitingJob.graph.Worked := by
    unfold waitingJob
    exact .move (.move (TaskGraph.Worked.empty.afterAll _) (.enter _)) .run
  have hwaits : waitingJob.graph.resetAll ≠ waitingJob.graph := by decide +kernel
  obtain ⟨hrestore, hcompile, -⟩ := restore_capture_of_worked hworked
  exact ⟨hworked, hwaits, hrestore, hcompile⟩

end Snapshot
end JobPipeline
