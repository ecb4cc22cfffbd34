import JobPipeline.Proofs.Graph.Stages
import JobPipeline.Proofs.Simulation.Moves

/-
What is true of a simulation between two moves.

The status, the place in the plan, the results and the tasks are moved on by different
steps, and a walk can go back and forth past a task that waits.  `Steady` is what they
agree on all the time.  Each move that changes a task either leaves it waiting for a
decision or settles it, and there is one lemma for each.
-/
namespace JobPipeline

namespace TaskGraph

/-- A name leads to a task of that name. -/
def Indexed (g : TaskGraph) : Prop := ∀ name n, g.named? name = some n → n.name = name

theorem WellFormed.named {g : TaskGraph} (h : g.WellFormed) : g.Indexed := by
  intro name n hn
  obtain ⟨m, hm, hname, hid⟩ := (h.indexed name n.id).1 (idOf?_of_named? hn)
  have hmem : n ∈ g.nodes := mem_of_node? (node?_of_named? hn)
  rw [← hname, eq_of_id_eq h.nodeIds hmem hm hid.symm]

theorem WellFormed.named?_of_mem {g : TaskGraph} (h : g.WellFormed) {n : Node} (hn : n ∈ g.nodes) :
    g.named? n.name = some n := by
  rw [named?, h.idOf?_of_mem hn]
  exact node?_eq_some h.nodeIds hn

theorem named?_form (g : TaskGraph) (name : String) :
    g.form.named? name = (g.named? name).map Node.form := by
  rw [named?, named?, idOf?_form]
  cases g.idOf? name with
  | none => rfl
  | some id => exact node?_form g id

theorem isSome_named?_of_form {g g' : TaskGraph} (h : g'.form = g.form) (name : String) :
    (g'.named? name).isSome = (g.named? name).isSome := by
  have hforms : (g'.named? name).map Node.form = (g.named? name).map Node.form := by
    rw [← named?_form, ← named?_form, h]
  rw [← Option.isSome_map (f := Node.form), hforms, Option.isSome_map]

theorem named?_of_form {g g' : TaskGraph} (h : g'.form = g.form) {name : String} {n' : Node}
    (hn' : g'.named? name = some n') : ∃ n, g.named? name = some n ∧ n.form = n'.form := by
  have hforms : (g.named? name).map Node.form = some n'.form := by
    rw [← named?_form, ← h, named?_form, hn']
    rfl
  exact Option.map_eq_some_iff.1 hforms

theorem Indexed.of_form {g g' : TaskGraph} (h : g.Indexed) (hform : g'.form = g.form) : g'.Indexed := by
  intro name n' hn'
  obtain ⟨n, hn, hsame⟩ := named?_of_form hform hn'
  rw [← Node.name_of_form hsame, h name n hn]

end TaskGraph

namespace Walk

variable {w : Walk} {step : Instruction}

theorem index_lt (h : w.current? = some step) : w.index < w.plan.tasks.length := by
  obtain ⟨hlt, _⟩ := List.getElem?_eq_some_iff.1 h
  exact hlt

theorem mem_order (h : w.current? = some step) : step.id ∈ w.plan.order :=
  List.mem_map_of_mem (List.mem_of_getElem? h)

/-- With distinct names a task of a plan stands where it is found. -/
theorem position?_eq {plan : Plan} (hnames : plan.order.Nodup) {i : Nat}
    (h : plan.tasks[i]? = some step) : plan.position? step.id = some i := by
  obtain ⟨hlt, rfl⟩ := List.getElem?_eq_some_iff.1 h
  rw [Plan.position?, List.findIdx?_eq_some_iff_getElem]
  refine ⟨hlt, decide_eq_true rfl, fun j hj heq => ?_⟩
  have happart := List.pairwise_iff_getElem.1 (List.pairwise_map.1 hnames) j i (hj.trans hlt) hlt hj
  exact happart (of_decide_eq_true heq)

theorem mem_without {task : String} {results : List RunResult} {r : RunResult} :
    r ∈ without task results ↔ r ∈ results ∧ r.task ≠ task := by
  rw [without, List.mem_filter, decide_eq_true_eq]

/-- A result that is behind the walk and is kept is behind it when it has moved back. -/
theorem behind_of_retained {r : RunResult} (hr : r ∈ w.retained) {i : Nat}
    (hplace : w.plan.position? r.task = some i) (hlt : i < w.index) : i < w.index - 1 := by
  rw [retained] at hr
  split at hr
  · omega
  · next index hindex =>
    have hle : i ≤ index := by omega
    refine hindex ▸ Nat.lt_of_le_of_ne hle fun heq => ?_
    subst heq
    obtain ⟨hbound, hfound, -⟩ := List.findIdx?_eq_some_iff_getElem.1 hplace
    rw [List.getElem?_eq_getElem hbound] at hr
    exact (mem_without.1 hr).2 (of_decide_eq_true hfound).symm

end Walk

/-- Every plan that is given has each name once. -/
def Services.Distinct {σ : Type} (services : Services σ) : Prop :=
  ∀ text plan, services.plan text = .ok plan → plan.order.Nodup

theorem Services.ofSource_of_local {σ : Type} {services : Services σ} (h : services.plan = localPlan)
    {text : String} {plan : Plan} (hplan : services.plan text = .ok plan) : Plan.ofSource text = .ok plan := by
  rw [h, localPlan] at hplan
  cases hsource : Plan.ofSource text with
  | ok found =>
    rw [hsource] at hplan
    cases hplan
    rfl
  | error fault =>
    rw [hsource] at hplan
    cases hplan

theorem Services.ne_walk_of_local {σ : Type} {services : Services σ} (h : services.plan = localPlan)
    {text : String} {error : JobError} (hplan : services.plan text = .error error) (fault : WalkFault) :
    error ≠ .walk fault := by
  rw [h, localPlan] at hplan
  cases hsource : Plan.ofSource text with
  | ok found =>
    rw [hsource] at hplan
    cases hplan
  | error fault =>
    rw [hsource] at hplan
    cases hplan
    nofun

theorem Services.distinct_of_local {σ : Type} {services : Services σ} (h : services.plan = localPlan) :
    services.Distinct := fun _ _ hplan => Plan.nodup_order (ofSource_of_local h hplan)

namespace Simulation

variable {σ : Type} {services : Services σ} {s s' : Simulation σ} {step : Instruction} {n m : Node}

/-- A success is kept behind the walk, and it is what its task has settled with. -/
def Keeps (s : Simulation σ) (r : RunResult) : Prop :=
  ∃ i n, s.walk.plan.position? r.task = some i ∧ i < s.walk.index ∧
    s.job.graph.named? r.task = some n ∧ n.state = .success ∧ n.runResult = some r

structure Steady (s : Simulation σ) : Prop where
  indexed : s.job.graph.Indexed
  order : s.walk.plan.order.Nodup
  index_le : s.walk.index ≤ s.walk.plan.tasks.length
  /-- At most one result is kept for a task, and the plan has the task. -/
  single : (s.walk.results.map RunResult.task).Nodup
  planned : ∀ r ∈ s.walk.results, r.task ∈ s.walk.plan.order
  keeps : ∀ r ∈ s.walk.results, r.isError = false → s.Keeps r
  /-- What is waited for is at hand. -/
  waits : s.walk.status = .awaiting → ∃ step n request, s.walk.current? = some step ∧
    s.job.graph.named? step.id = some n ∧ n.state = .pendingSideEffect ∧ n.lastRequest = some request
  /-- No task is left halfway. -/
  rests : ∀ n ∈ s.job.graph.nodes,
    n.state ≠ .pendingRun ∧ n.state ≠ .running ∧ n.state ≠ .executingSideEffect
  /-- Without a run there is no plan. -/
  idle : s.walk.refusal? ≠ none → s.walk.plan = Plan.empty ∧ s.walk.results = [] ∧ s.walk.index = 0

theorem Steady.atHand (h : s.Steady) (hstatus : s.walk.status = .awaiting) :
    ∃ step n request, s.AtHand step n ∧ n.state = .pendingSideEffect ∧ n.lastRequest = some request := by
  obtain ⟨step, n, request, hturn, htask, hstate, hrequest⟩ := h.waits hstatus
  exact ⟨step, n, request, ⟨refusal?_of_awaiting hstatus, hturn, htask⟩, hstate, hrequest⟩

theorem Steady.name (h : s.Steady) (hhand : s.AtHand step n) : n.name = step.id :=
  h.indexed step.id n hhand.task

/-- Of the tasks that have a success, none is at hand. -/
theorem Steady.ne_of_keeps (h : s.Steady) (hhand : s.AtHand step n) {r : RunResult} (hkeeps : s.Keeps r) :
    r.task ≠ step.id := by
  intro heq
  obtain ⟨i, _, hplace, hlt, _⟩ := hkeeps
  have hhere := Walk.position?_eq h.order hhand.turn
  rw [heq, hhere] at hplace
  exact absurd (Option.some.inj hplace) (Nat.ne_of_gt hlt)

/-- The task at hand may change without a success being lost. -/
theorem Steady.keeps_put (h : s.Steady) (hhand : s.AtHand step n) (hid : m.id = n.id) {r : RunResult}
    (hkeeps : s.Keeps r) (hplan : s'.walk.plan = s.walk.plan) (hindex : s.walk.index ≤ s'.walk.index)
    (hgraph : s'.job.graph = s.job.graph.put m) : s'.Keeps r := by
  have hne := h.ne_of_keeps hhand hkeeps
  obtain ⟨i, k, hplace, hlt, hname, hstate, hresult⟩ := hkeeps
  refine ⟨i, k, hplan ▸ hplace, Nat.lt_of_lt_of_le hlt hindex, ?_, hstate, hresult⟩
  have hother : s.job.graph.idOf? r.task ≠ some m.id := by
    intro hsame
    have hnamed : s.job.graph.named? r.task = some n := by
      rw [TaskGraph.named?, hsame, hid]
      exact hhand.node?
    exact hne ((h.indexed r.task n hnamed).symm.trans (h.name hhand))
  rw [hgraph, TaskGraph.named?_put (hid ▸ hhand.node?), if_neg hother]
  exact hname

theorem Steady.named?_put (hhand : s.AtHand step n) (hid : m.id = n.id) :
    (s.job.graph.put m).named? step.id = some m := by
  rw [TaskGraph.named?_put (hid ▸ hhand.node?), if_pos (hid ▸ TaskGraph.idOf?_of_named? hhand.task)]

theorem Steady.indexed_put (h : s.Steady) (hhand : s.AtHand step n) (hform : m.form = n.form)
    (hgraph : s'.job.graph = s.job.graph.put m) : s'.job.graph.Indexed := by
  have hnode : s.job.graph.node? m.id = some n := Node.id_of_form hform ▸ hhand.node?
  exact h.indexed.of_form (hgraph ▸ TaskGraph.form_put hnode hform)

theorem Steady.rests_put (h : s.Steady) (hgraph : s'.job.graph = s.job.graph.put m)
    (hstate : m.state ≠ .pendingRun ∧ m.state ≠ .running ∧ m.state ≠ .executingSideEffect) :
    ∀ k ∈ s'.job.graph.nodes, k.state ≠ .pendingRun ∧ k.state ≠ .running ∧ k.state ≠ .executingSideEffect := by
  intro k hk
  rw [hgraph] at hk
  rcases TaskGraph.mem_put hk with rfl | hk
  · exact hstate
  · exact h.rests k hk

/-- The task at hand waits for a decision. -/
theorem Steady.prompt (h : s.Steady) (hhand : s.AtHand step n) (hform : m.form = n.form)
    (hstate : m.state = .pendingSideEffect) {request : Request} (hrequest : m.lastRequest = some request)
    (hwalk : s'.walk = { s.walk with status := .awaiting })
    (hgraph : s'.job.graph = s.job.graph.put m) : s'.Steady := by
  have hid : m.id = n.id := Node.id_of_form hform
  have hplan : s'.walk.plan = s.walk.plan := by rw [hwalk]
  have hresults : s'.walk.results = s.walk.results := by rw [hwalk]
  have hindex : s'.walk.index = s.walk.index := by rw [hwalk]
  exact {
    indexed := h.indexed_put hhand hform hgraph
    order := hplan ▸ h.order
    index_le := by
      rw [hindex, hplan]
      exact h.index_le
    single := hresults ▸ h.single
    planned := by
      rw [hresults, hplan]
      exact h.planned
    keeps := fun r hr hok =>
      h.keeps_put hhand hid (h.keeps r (hresults ▸ hr) hok) hplan (Nat.le_of_eq hindex.symm) hgraph
    waits := fun _ => by
      refine ⟨step, m, request, ?_, ?_, hstate, hrequest⟩
      · rw [Walk.current?, hplan, hindex]
        exact hhand.turn
      · rw [hgraph]
        exact Steady.named?_put hhand hid
    rests := h.rests_put hgraph (by rw [hstate]; decide)
    idle := by
      rw [hwalk]
      exact fun hrefused => absurd rfl hrefused }

/-- The result that is kept is the only one of its task. -/
theorem single_record {results : List RunResult} (h : (results.map RunResult.task).Nodup) (r : RunResult) :
    ((Walk.without r.task results ++ [r]).map RunResult.task).Nodup := by
  rw [List.map_append, List.map_singleton]
  refine List.nodup_append'.2 ⟨h.sublist (List.filter_sublist.map _), List.nodup_singleton _, ?_⟩
  refine List.disjoint_singleton.2 fun hmem => ?_
  obtain ⟨r', hr', hsame⟩ := List.mem_map.1 hmem
  exact (Walk.mem_without.1 hr').2 hsame

/-- The task at hand has settled. -/
theorem Steady.settle (h : s.Steady) (hhand : s.AtHand step n) (hform : m.form = n.form) {r : RunResult}
    (htask : r.task = n.name) (hstate : m.state = if r.isError then .failed else .success)
    (hresult : m.runResult = some r) (hwalk : s'.walk = { s.walk with status := .ready }.record r)
    (hgraph : s'.job.graph = s.job.graph.put m) : s'.Steady := by
  have hid : m.id = n.id := Node.id_of_form hform
  have hplan : s'.walk.plan = s.walk.plan := by rw [hwalk, Walk.record]
  have hresults : s'.walk.results = Walk.without r.task s.walk.results ++ [r] := by rw [hwalk, Walk.record]
  have hindex : s'.walk.index = if r.isError then s.walk.index else s.walk.index + 1 := by
    rw [hwalk, Walk.record]
  have hmono : s.walk.index ≤ s'.walk.index := by
    rw [hindex]
    split <;> omega
  have hname : r.task = step.id := htask.trans (h.name hhand)
  have hkept : r.isError = false → s'.Keeps r := fun hok => by
    rw [hok] at hstate hindex
    refine ⟨s.walk.index, m, ?_, ?_, ?_, hstate, hresult⟩
    · rw [hplan, hname]
      exact Walk.position?_eq h.order hhand.turn
    · rw [hindex]
      exact Nat.lt_succ_self _
    · rw [hgraph, hname]
      exact Steady.named?_put hhand hid
  exact {
    indexed := h.indexed_put hhand hform hgraph
    order := hplan ▸ h.order
    index_le := by
      have hlt := Walk.index_lt hhand.turn
      rw [hindex, hplan]
      split <;> omega
    single := hresults ▸ single_record h.single r
    planned := by
      rw [hresults, hplan]
      refine List.forall_mem_append.2 ⟨fun r' hr' => h.planned r' (Walk.mem_without.1 hr').1, ?_⟩
      exact List.forall_mem_singleton.2 (hname ▸ Walk.mem_order hhand.turn)
    keeps := by
      rw [hresults]
      refine List.forall_mem_append.2 ⟨fun r' hr' hok => ?_, List.forall_mem_singleton.2 hkept⟩
      exact h.keeps_put hhand hid (h.keeps r' (Walk.mem_without.1 hr').1 hok) hplan hmono hgraph
    waits := fun hstatus => by
      rw [hwalk] at hstatus
      cases hstatus
    rests := h.rests_put hgraph (by rw [hstate]; split <;> decide)
    idle := by
      rw [hwalk]
      exact fun hrefused => absurd rfl hrefused }

/-- The walk stands elsewhere in the plan, and what is ahead of it has no success. -/
theorem Steady.stand (h : s.Steady) (hplan : s'.walk.plan = s.walk.plan)
    (hresults : s'.walk.results.Sublist s.walk.results) (hindex : s'.walk.index ≤ s.walk.plan.tasks.length)
    (hbehind : ∀ r ∈ s'.walk.results, ∀ i, s.walk.plan.position? r.task = some i → i < s.walk.index →
      i < s'.walk.index)
    (hstatus : s'.walk.status = .ready) (hgraph : s'.job.graph = s.job.graph) : s'.Steady := by
  exact {
    indexed := hgraph ▸ h.indexed
    order := hplan ▸ h.order
    index_le := hplan ▸ hindex
    single := h.single.sublist (hresults.map _)
    planned := fun r hr => hplan ▸ h.planned r (hresults.subset hr)
    keeps := fun r hr hok => by
      obtain ⟨i, k, hplace, hlt, hname, hstate, hresult⟩ := h.keeps r (hresults.subset hr) hok
      exact ⟨i, k, hplan ▸ hplace, hbehind r hr i hplace hlt, hgraph ▸ hname, hstate, hresult⟩
    waits := fun hawaiting => by
      rw [hstatus] at hawaiting
      cases hawaiting
    rests := hgraph ▸ h.rests
    idle := by
      rw [Walk.refusal?, hstatus]
      exact fun hrefused => absurd rfl hrefused }

/-- A walk without results, on tasks that are all idle. -/
theorem steady_fresh (h : s.job.graph.Indexed) (hgraph : s'.job.graph = s.job.graph.resetAll)
    (hresults : s'.walk.results = []) (hindex : s'.walk.index = 0) (horder : s'.walk.plan.order.Nodup)
    (hstatus : s'.walk.status ≠ .awaiting) (hidle : s'.walk.refusal? ≠ none → s'.walk.plan = Plan.empty) :
    s'.Steady := by
  have hindexed : s'.job.graph.Indexed := h.of_form (hgraph ▸ TaskGraph.form_resetAll s.job.graph)
  refine ⟨hindexed, horder, hindex ▸ Nat.zero_le _, ?_, ?_, ?_, fun hawaiting => absurd hawaiting hstatus, ?_,
    fun hrefused => ⟨hidle hrefused, hresults, hindex⟩⟩
  · rw [hresults]
    exact List.nodup_nil
  · rw [hresults]
    exact fun _ hr => (List.not_mem_nil hr).elim
  · rw [hresults]
    exact fun _ hr => (List.not_mem_nil hr).elim
  · intro n hn
    rw [hgraph] at hn
    obtain ⟨_, _, rfl⟩ := List.mem_map.1 hn
    exact ⟨nofun, nofun, nofun⟩

/-! ## A move -/

/-- A task is begun only when nothing is waited for. -/
theorem Steady.ready (h : s.Steady) (hhand : s.AtHand step n)
    (hopen : s.walk.status = .awaiting → n.lastRequest = none) : s.walk.status = .ready := by
  refine Walk.ready_of_ne hhand.active fun hstatus => ?_
  obtain ⟨step', n', request, hturn, htask, -, hrequest⟩ := h.waits hstatus
  obtain rfl : step = step' := Option.some.inj (hhand.turn.symm.trans hturn)
  obtain rfl : n = n' := Option.some.inj (hhand.task.symm.trans htask)
  rw [hopen hstatus] at hrequest
  cases hrequest

theorem Steady.runTask (h : s.Steady) (hhand : s.AtHand step n) (hready : s.walk.status = .ready) :
    (runTask services step n.id s).2.Steady := by
  rw [runTask_eq hhand.node?]
  split
  · next heffect =>
    have hstate : (s.begun step n).state = .pendingSideEffect := if_pos heffect
    exact h.prompt hhand (m := s.begun step n) rfl hstate rfl rfl rfl
  · have htask := Node.outcome_task (s.begun step n) (services.respond (s.request step n) s.state)
    refine h.settle hhand (m := (s.begun step n).answered _) rfl htask (Node.answered_state _ _) rfl ?_ ?_
    · rw [walk_settled, walk_called, walk_put, ← hready]
    · exact TaskGraph.put_put rfl

theorem Steady.run (h : s.Steady) (services : Services σ) : (s.runCurrent services).2.Steady := by
  obtain heq | ⟨_, _, hhand, hopen, heq⟩ := runCurrent_left services s
  · rw [heq]
    exact h
  · rw [heq]
    exact h.runTask hhand (h.ready hhand hopen)

theorem Steady.execute (h : s.Steady) (services : Services σ) : (s.execute services).2.Steady := by
  rcases execute_cases services s with ⟨_, heq⟩ | ⟨step, n, hhand, hstatus, hstate, hrest⟩
  · rw [heq]
    exact h
  · rcases hrest with ⟨hnone, -⟩ | ⟨request, -, heq⟩
    · exact absurd hnone (fun hnone => by
        have hready := h.ready hhand fun _ => hnone
        rw [hstatus] at hready
        cases hready)
    · rw [heq]
      refine h.settle hhand (m := n.executing.answered _) rfl (Node.outcome_task _ _)
        (Node.answered_state _ _) rfl rfl ?_
      exact TaskGraph.put_put rfl

theorem Steady.skip (h : s.Steady) : s.skip.2.Steady := by
  rcases skip_cases s with ⟨_, heq⟩ | ⟨step, n, hhand, _, _, heq⟩
  · rw [heq]
    exact h
  · rw [heq]
    exact h.settle hhand (m := n.answered _) rfl (Node.outcome_task _ _) (Node.answered_state _ _) rfl rfl rfl

theorem Steady.next (h : s.Steady) : s.next.2.Steady := by
  cases hrefusal : s.walk.refusal? with
  | some error =>
    rw [next_refused hrefusal]
    exact h
  | none =>
    have hle := h.index_le
    rw [next_eq hrefusal]
    refine h.stand rfl (List.Sublist.refl _) ?_ (fun _ _ i _ hlt => ?_) rfl rfl
    · show s.walk.ahead ≤ _
      rw [Walk.ahead]
      split <;> omega
    · show i < s.walk.ahead
      rw [Walk.ahead]
      split <;> omega

theorem Steady.previous (h : s.Steady) : s.previous.2.Steady := by
  cases hrefusal : s.walk.refusal? with
  | some error =>
    rw [previous_refused hrefusal]
    exact h
  | none =>
    have hle := h.index_le
    rw [previous_eq hrefusal]
    refine h.stand rfl s.walk.retained_sublist ?_ (fun r hr i hplace hlt => ?_) rfl rfl
    · show s.walk.index - 1 ≤ _
      omega
    · exact Walk.behind_of_retained hr hplace hlt

theorem steady_enter {run : String} (h : s.job.graph.Indexed) (hservices : services.Distinct) :
    (s.enter services run).2.Steady := by
  cases hplan : services.plan s.job.graph.source with
  | ok plan =>
    rw [enter_ok hplan]
    exact steady_fresh h rfl rfl rfl (hservices _ _ hplan) nofun fun hrefused => absurd rfl hrefused
  | error error =>
    have hstatus : (s.barred error run).walk.status ≠ .awaiting := by
      cases error <;> nofun
    rw [enter_error hplan]
    exact steady_fresh h rfl rfl rfl List.nodup_nil hstatus fun _ => rfl

theorem steady_exit (h : s.job.graph.Indexed) : s.exit.Steady :=
  steady_fresh h rfl rfl rfl List.nodup_nil nofun fun _ => rfl

theorem Steady.move (h : s.Steady) (hservices : services.Distinct)
    (m : Move) : (s.move services m).2.Steady := by
  cases m with
  | enter run => exact steady_enter h.indexed hservices
  | run => exact h.run services
  | execute => exact h.execute services
  | skip => exact h.skip
  | next => exact h.next
  | previous => exact h.previous
  | exit => exact steady_exit h.indexed

/-- Before the first run. -/
theorem steady_start {job : Job} (hg : job.graph.Built) (state : σ) :
    (⟨Walk.start, job, state, []⟩ : Simulation σ).Steady := by
  refine ⟨hg.sound.wellFormed.named, List.nodup_nil, Nat.le_refl 0, List.nodup_nil, nofun, nofun, nofun, ?_,
    fun _ => ⟨rfl, rfl, rfl⟩⟩
  intro n hn
  have hidle : n.state = .idle := hg.idle n hn
  rw [hidle]
  exact ⟨nofun, nofun, nofun⟩

theorem Steady.after (h : s.Steady) (hservices : services.Distinct)
    (moves : List Move) : (s.after services moves).Steady := by
  induction moves generalizing s with
  | nil => exact h
  | cons m moves ih => exact ih (h.move hservices m)

/-! ## What a move answers with -/

/-- Every task of the plan is in the graph. -/
def Complete (s : Simulation σ) : Prop :=
  ∀ step ∈ s.walk.plan.tasks, (s.job.graph.named? step.id).isSome = true

theorem Complete.atHand (h : s.Complete) (hactive : s.walk.refusal? = none) (hturn : s.walk.current? = some step) :
    ∃ n, s.AtHand step n := by
  obtain ⟨n, htask⟩ := Option.isSome_iff_exists.1 (h step (List.mem_of_getElem? hturn))
  exact ⟨n, hactive, hturn, htask⟩

theorem RunOf.complete {job : Job} (h : s.RunOf services job) (hg : job.graph.Built)
    (hbalanced : ∀ n ∈ job.graph.nodes, n.AnglesBalanced) (hservices : services.plan = Services.localPlan) :
    s.Complete := by
  intro step hstep
  rw [TaskGraph.isSome_named?_of_form h.form]
  rcases h.plan with hempty | hplan
  · rw [hempty] at hstep
    cases hstep
  · have hplanned := (Job.plan_compile hg hbalanced).2.1 s.walk.plan
      (by rw [Job.source_compile]; exact Services.ofSource_of_local hservices hplan)
    obtain ⟨n, hn, hname⟩ := List.mem_map.1 (hplanned.names.mem_iff.1 (List.mem_map_of_mem hstep))
    have hmem : n ∈ job.graph.nodes := (List.mem_filter.1 hn).1
    rw [← hname, hg.sound.wellFormed.named?_of_mem hmem]
    rfl

theorem Complete.run_ok (h : s.Complete) (hactive : s.walk.refusal? = none) (services : Services σ) :
    ∃ outcome, (s.runCurrent services).1 = .ok outcome := by
  cases hturn : s.walk.current? with
  | none => exact ⟨.finished, by rw [runCurrent_finished hactive hturn]⟩
  | some step =>
    obtain ⟨n, hhand⟩ := h.atHand hactive hturn
    rcases hhand.run_cases services with ⟨request, _, _, heq⟩ | ⟨_, heq⟩
    · exact ⟨.awaiting request, by rw [heq]⟩
    · rw [heq, runTask_eq hhand.node?]
      split <;> exact ⟨_, rfl⟩

theorem Steady.execute_ok (h : s.Steady) (hstatus : s.walk.status = .awaiting) (services : Services σ) :
    ∃ outcome, (s.execute services).1 = .ok outcome := by
  obtain ⟨step, n, request, hhand, hstate, hrequest⟩ := h.atHand hstatus
  exact ⟨_, by rw [execute_eq hhand hstatus hstate hrequest]⟩

theorem Steady.skip_ok (h : s.Steady) (hstatus : s.walk.status = .awaiting) : ∃ outcome, s.skip.1 = .ok outcome := by
  obtain ⟨step, n, request, hhand, hstate, hrequest⟩ := h.atHand hstatus
  exact ⟨_, by rw [skip_eq hhand hstatus hstate]⟩

theorem refusal?_ne_walk {error : JobError} (h : s.walk.refusal? = some error) (fault : WalkFault) :
    error ≠ .walk fault := by
  rw [Walk.refusal?] at h
  split at h <;> cases h <;> (intro heq; cases heq)

/-- The only fault that a move can find is that it decides on nothing. -/
theorem Steady.fault (h : s.Steady) (hcomplete : s.Complete) (hservices : services.plan = Services.localPlan)
    {m : Move} {fault : WalkFault} (hfault : (s.move services m).1 = .error (.walk fault)) :
    (m = .execute ∨ m = .skip) ∧ s.walk.status = .ready ∧ fault = .nothingPending := by
  by_cases henter : ∃ run, m = .enter run
  · obtain ⟨run, rfl⟩ := henter
    rw [Simulation.move] at hfault
    cases hplan : services.plan s.job.graph.source with
    | ok plan =>
      rw [enter_ok hplan] at hfault
      cases hfault
    | error error =>
      rw [enter_error hplan] at hfault
      cases hfault
      exact absurd rfl (Services.ne_walk_of_local hservices hplan fault)
  · rw [not_exists] at henter
    cases hrefusal : s.walk.refusal? with
    | some error =>
      by_cases hexit : m = .exit
      · subst hexit
        cases hfault
      · rw [move_refused hrefusal henter hexit] at hfault
        cases hfault
        exact absurd rfl (refusal?_ne_walk hrefusal fault)
    | none =>
      have hdecided : ∀ {decided : Stepped σ StepOutcome},
          (s.pendingTask = .error (.walk .nothingPending) → decided = (.error (.walk .nothingPending), s)) →
          (s.walk.status = .awaiting → ∃ outcome, decided.1 = .ok outcome) →
          decided.1.map Answer.came = .error (.walk fault) →
          s.walk.status = .ready ∧ fault = .nothingPending := by
        intro decided hnothing hok herror
        by_cases hstatus : s.walk.status = .awaiting
        · obtain ⟨outcome, houtcome⟩ := hok hstatus
          rw [houtcome] at herror
          cases herror
        · rw [hnothing (pendingTask_of_ne hrefusal hstatus)] at herror
          cases herror
          exact ⟨Walk.ready_of_ne hrefusal hstatus, rfl⟩
      cases m with
      | enter run => exact absurd rfl (henter run)
      | run =>
        obtain ⟨outcome, hrun⟩ := hcomplete.run_ok hrefusal services
        rw [Simulation.move, hrun] at hfault
        cases hfault
      | execute => exact ⟨.inl rfl, hdecided execute_error (h.execute_ok · services) hfault⟩
      | skip => exact ⟨.inr rfl, hdecided skip_error h.skip_ok hfault⟩
      | next =>
        rw [Simulation.move, next_eq hrefusal] at hfault
        cases hfault
      | previous =>
        rw [Simulation.move, previous_eq hrefusal] at hfault
        cases hfault
      | exit => cases hfault

/-- A simulation of a job, between two moves. -/
theorem steady_after {job : Job} (hg : job.graph.Built) (hbalanced : ∀ n ∈ job.graph.nodes, n.AnglesBalanced)
    (hservices : services.plan = Services.localPlan) (state : σ) (moves : List Move) :
    let s := (⟨Walk.start, job, state, []⟩ : Simulation σ).after services moves
    s.Steady ∧
      (∀ fault, s.walk.status = .failed fault → ∀ m, (∀ run, m ≠ .enter run) → m ≠ .exit →
        s.move services m = (.error (.parse fault), s)) ∧
      ∀ m fault, (s.move services m).1 = .error (.walk fault) →
        (m = .execute ∨ m = .skip) ∧ s.walk.status = .ready ∧ fault = .nothingPending := by
  intro s
  have hsteady : s.Steady := (steady_start hg state).after (Services.distinct_of_local hservices) moves
  have hstart : (⟨Walk.start, job, state, []⟩ : Simulation σ).RunOf services job := ⟨rfl, rfl, .inl rfl⟩
  have hcomplete : s.Complete := (hstart.after moves).complete hg hbalanced hservices
  refine ⟨hsteady, fun fault hstatus m henter hexit => ?_, fun m fault => hsteady.fault hcomplete hservices⟩
  have hrefused : s.walk.refusal? = some (.parse fault) := by
    rw [Walk.refusal?, hstatus]
  exact move_refused hrefused henter hexit

/-- A task with a side effect that feeds one without. -/
def fetchJob : Job where
  config := JobConfig.ofType .directRequest
  graph := TaskGraph.empty.afterAll [.addNamed .http "fetch" .origin none,
    .addNamed .jsonParse "parse" .origin (some ⟨"node_1", .target⟩)]

/-- The same answer to every request. -/
def constantly (value : Json) : Services Unit := ⟨Services.localPlan, fun _ _ => (.ok (.ofValue value), ())⟩

theorem steady_after_fetchJob :
    fetchJob.graph.Built ∧ (∀ n ∈ fetchJob.graph.nodes, n.AnglesBalanced) ∧
      ((⟨Walk.start, fetchJob, (), []⟩ : Simulation Unit).after (constantly .null)
        [.enter "exec-1", .run, .next, .previous, .run, .execute, .run, .previous]).Steady := by
  have hbuilt : fetchJob.graph.Built := ⟨_, rfl⟩
  have hbalanced : ∀ n ∈ fetchJob.graph.nodes, n.AnglesBalanced := by decide
  exact ⟨hbuilt, hbalanced, (steady_after hbuilt hbalanced rfl () _).1⟩

end Simulation
end JobPipeline
