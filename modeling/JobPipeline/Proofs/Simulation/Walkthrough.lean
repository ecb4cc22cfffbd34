import JobPipeline.Proofs.Simulation.Variables
import JobPipeline.Simulation.Walkthrough

/-
Walks through a whole plan.

Whoever walks decides at each side effect whether it is executed, and passes by the
tasks that fail.  The plan has each task behind all that it waits for, so a task finds
the results of its sources among those that are kept, and one task after the other
settles until the plan is at its end.
-/
namespace JobPipeline

open Relation (TransGen)

namespace Simulation

variable {σ : Type} {services : Services σ} {s s' t : Simulation σ} {step : Instruction} {n m : Node}

/-- Runs the task at hand, and decides on its side effect when it waits for that. -/
def runDeciding (services : Services σ) (chooses : Simulation σ → Bool) (s : Simulation σ) : Stepped σ StepOutcome :=
  match s.runCurrent services with
  | (.ok (.awaiting _), s) => if chooses s then s.execute services else s.skip
  | stepped => stepped

/-- A walk comes to the end of the plan, with the requests that it builds and what the
tasks settle with. -/
inductive Walked (services : Services σ) (chooses : Simulation σ → Bool) :
    Simulation σ → List (Request × RunResult) → Simulation σ → Prop
  | finished {s s' : Simulation σ} (run : s.runDeciding services chooses = (.ok .finished, s')) :
      Walked services chooses s [] s'
  | settled {s t u s' : Simulation σ} {request : Request} {result : RunResult} {index : Nat}
      {trail : List (Request × RunResult)} (built : Builds services s request)
      (run : s.runDeciding services chooses = (.ok (.settled result), t))
      (passed : t.passBy result = (.ok index, u)) (rest : Walked services chooses u trail s') :
      Walked services chooses s ((request, result) :: trail) s'

/-- A walk with enough steps is the one that comes to the end. -/
theorem Walked.walkOn_eq {execute : Bool} {trail : List (Request × RunResult)}
    (h : Walked services (fun _ => execute) s trail s') {fuel : Nat} (hfuel : trail.length < fuel) :
    s.walkOn services execute fuel = (trail.map Prod.snd, none, s') := by
  induction h generalizing fuel with
  | finished run =>
    obtain ⟨fuel, rfl⟩ := Nat.exists_eq_succ_of_ne_zero (Nat.ne_of_gt hfuel)
    have hrun : Simulation.runDecided services execute _ = _ := run
    rw [walkOn, hrun]
    rfl
  | @settled s t u s' request result index trail built run passed rest ih =>
    obtain ⟨fuel, rfl⟩ := Nat.exists_eq_succ_of_ne_zero (Nat.ne_of_gt (Nat.zero_lt_of_lt hfuel))
    have hrun : s.runDecided services execute = _ := run
    rw [walkOn, hrun]
    dsimp only
    rw [passed]
    dsimp only
    rw [ih (Nat.lt_of_succ_lt_succ hfuel)]
    rfl

/-! ## One task after the other -/

/-- A side effect that is waited for settles, whether it is executed or skipped. -/
theorem Steady.decided (h : s.Steady) (hhand : s.AtHand step n) (hstatus : s.walk.status = .awaiting)
    (hstate : n.state = .pendingSideEffect) {request : Request} (hrequest : n.lastRequest = some request)
    (services : Services σ) (execute : Bool) :
    ∃ result t, (if execute then s.execute services else s.skip) = (.ok (.settled result), t) ∧
      result.task = step.id ∧ t.walk = { s.walk with status := .ready }.record result ∧ t.Steady ∧ OnCourse s t := by
  have hname : n.name = step.id := h.name hhand
  cases execute with
  | true =>
    have hsteady := h.execute services
    have hcourse := OnCourse.execute services s
    rw [if_pos rfl]
    rw [execute_eq hhand hstatus hstate hrequest] at hsteady hcourse ⊢
    exact ⟨_, _, rfl, (Node.outcome_task _ _).trans hname, rfl, hsteady, hcourse⟩
  | false =>
    have hsteady := h.skip
    have hcourse := OnCourse.skip s
    rw [if_neg Bool.false_ne_true]
    rw [skip_eq hhand hstatus hstate] at hsteady hcourse ⊢
    exact ⟨_, _, rfl, (Node.outcome_task _ _).trans hname, rfl, hsteady, hcourse⟩

/-- The task at hand settles, whatever is decided on its side effect. -/
theorem Steady.runDeciding (h : s.Steady) (hhand : s.AtHand step n) (hready : s.walk.status = .ready)
    (services : Services σ) (chooses : Simulation σ → Bool) :
    ∃ result t, s.runDeciding services chooses = (.ok (.settled result), t) ∧ result.task = step.id ∧
      t.walk = s.walk.record result ∧ t.Steady ∧ OnCourse s t := by
  have hrun : s.runCurrent services = Simulation.runTask services step n.id s :=
    runCurrent_begins hhand fun hstatus => by rw [hready] at hstatus; cases hstatus
  have hsteady : (Simulation.runTask services step n.id s).2.Steady := h.runTask hhand hready
  have hcourse : OnCourse s (Simulation.runTask services step n.id s).2 := OnCourse.runTask hhand.node? step
  rw [Simulation.runDeciding, hrun]
  rw [runTask_eq hhand.node?] at hsteady hcourse ⊢
  by_cases heffect : n.kind.hasSideEffect = true
  · rw [if_pos heffect] at hsteady hcourse ⊢
    have hwaits : (s.prompted step n).AtHand step (s.begun step n) :=
      ⟨rfl, hhand.turn, Steady.named?_put hhand rfl⟩
    have hstate : (s.begun step n).state = .pendingSideEffect := if_pos heffect
    have hwalk : { (s.prompted step n).walk with status := .ready } = s.walk := by
      rw [← hready]
      rfl
    obtain ⟨result, t, hdecided, htask, hrecord, ht, htcourse⟩ :=
      hsteady.decided hwaits rfl hstate rfl services (chooses (s.prompted step n))
    exact ⟨result, t, hdecided, htask, hwalk ▸ hrecord, ht, hcourse.trans htcourse⟩
  · rw [if_neg heffect] at hsteady hcourse ⊢
    have hname : n.name = step.id := h.name hhand
    exact ⟨_, _, rfl, (Node.outcome_task _ _).trans hname, rfl, hsteady, hcourse⟩

/-- The task at hand settles and is passed by. -/
theorem Steady.settles (h : s.Steady) (hhand : s.AtHand step n) (hready : s.walk.status = .ready)
    (services : Services σ) (chooses : Simulation σ → Bool) :
    ∃ result t index u, s.runDeciding services chooses = (.ok (.settled result), t) ∧
      t.passBy result = (.ok index, u) ∧ result.task = step.id ∧
      u.walk = { s.walk with
        index := s.walk.index + 1
        results := Walk.without result.task s.walk.results ++ [result] } ∧
      u.Steady ∧ OnCourse s u := by
  obtain ⟨result, t, hrun, htask, hrecord, ht, hcourse⟩ := h.runDeciding hhand hready services chooses
  have hlt := Walk.index_lt hhand.turn
  have hactive : t.walk.refusal? = none := by
    rw [hrecord]
    exact hhand.active
  cases herror : result.isError with
  | true =>
    have hindex : t.walk.ahead = s.walk.index + 1 := by
      rw [hrecord, Walk.record, herror]
      exact if_pos hlt
    have hpass : t.passBy result = (.ok t.walk.ahead, t.stood t.walk.ahead t.walk.results) := by
      rw [passBy, herror]
      exact next_eq hactive
    have hnext := ht.next
    rw [next_eq hactive] at hnext
    refine ⟨result, t, _, _, hrun, hpass, htask, ?_, hnext, hcourse.trans ⟨rfl, rfl, rfl⟩⟩
    rw [stood, hindex, hrecord, ← hready]
    rfl
  | false =>
    have hpass : t.passBy result = (.ok t.walk.index, t) := by
      rw [passBy, herror]
      rfl
    refine ⟨result, t, _, t, hrun, hpass, htask, ?_, ht, hcourse⟩
    rw [hrecord, Walk.record, herror]
    rfl

theorem runDeciding_finished (hactive : s.walk.refusal? = none) (hcurrent : s.walk.current? = none)
    (services : Services σ) (chooses : Simulation σ → Bool) : s.runDeciding services chooses = (.ok .finished, s) := by
  rw [runDeciding, runCurrent_finished hactive hcurrent]

end Simulation

/-! ## What a task is given -/

namespace TaskGraph

/-- A request is given what the written sources of its task have settled with, in the
order of the edges, and null for those that failed. -/
def Supplied (g : TaskGraph) (results : List RunResult) (request : Request) : Prop :=
  ∃ n ∈ g.nodes, n.name = request.task ∧
    List.Forall₂ (fun source input => ∃ r ∈ results, r.task = source ∧ input = if r.isError then .null else r.value)
      ((sourceNames g.edges n.id).filter g.namesWritten) request.inputs

variable {g : TaskGraph} {plan : Plan} {step : Instruction} {i : Nat}

/-- Whose results a task is given comes before it in the plan. -/
theorem Planned.before_of_propagated (h : g.Planned plan) (hg : g.WellFormed) (hstep : plan.tasks[i]? = some step)
    {source : String} (hsource : source ∈ step.propagated) : source ∈ plan.order.take i := by
  obtain ⟨n, hn, hname, hpropagated⟩ := h.propagated step (List.mem_of_getElem? hstep)
  have hmem : n ∈ g.nodes := (List.mem_filter.1 hn).1
  rw [hpropagated, hg.incoming n hmem] at hsource
  obtain ⟨hincoming, hwritten⟩ := List.mem_filter.1 hsource
  obtain ⟨e, he, htarget, rfl⟩ := mem_sourceNames.1 hincoming
  have hedge : e ∈ g.writtenEdges := List.mem_filter.2 ⟨he, (hg.isWritten_edge he hn htarget).trans hwritten⟩
  have hwaits : g.Waits e.sourceName step.id := by
    rw [← hname, ← (hg.targetName_eq_iff he hmem).2 htarget]
    exact .edge hedge
  obtain ⟨j, k, hsourceAt, hstepAt, hlt⟩ := h.before _ _ hwaits
  rw [Walk.position?_eq h.nodup hstep] at hstepAt
  obtain rfl := Option.some.inj hstepAt
  obtain ⟨hbound, hfound, -⟩ := List.findIdx?_eq_some_iff_getElem.1 hsourceAt
  rw [← of_decide_eq_true hfound, Plan.order, ← List.map_take]
  refine List.mem_map_of_mem (List.mem_take_iff_getElem.2 ⟨j, ?_, rfl⟩)
  omega

theorem Planned.supplied (h : g.Planned plan) (hg : g.WellFormed) (hstep : plan.tasks[i]? = some step)
    {w : Walk} (hdone : w.results.map RunResult.task = plan.order.take i) {request : Request}
    (htask : request.task = step.id) (hinputs : request.inputs = w.inputs step) : g.Supplied w.results request := by
  obtain ⟨n, hn, hname, hpropagated⟩ := h.propagated step (List.mem_of_getElem? hstep)
  have hmem : n ∈ g.nodes := (List.mem_filter.1 hn).1
  refine ⟨n, hmem, hname.trans htask.symm, ?_⟩
  rw [← hg.incoming n hmem, ← hpropagated, hinputs, Walk.inputs, List.forall₂_map_right_iff, List.forall₂_same]
  intro source hsource
  have hbefore := h.before_of_propagated hg hstep hsource
  rw [← hdone] at hbefore
  obtain ⟨r, hr, hsame⟩ := List.mem_map.1 hbefore
  cases hfound : w.result? source with
  | none =>
    have hnone := List.find?_eq_none.1 hfound r hr
    exact absurd (decide_eq_true hsame) hnone
  | some kept =>
    have hkept : kept.task = source := by simpa using List.find?_some hfound
    exact ⟨kept, List.mem_of_find?_eq_some hfound, hkept, rfl⟩

/-- The tasks before one and this one are the tasks before the next. -/
theorem order_take_succ (hstep : plan.tasks[i]? = some step) :
    plan.order.take (i + 1) = plan.order.take i ++ [step.id] := by
  have hid : plan.order[i]? = some step.id := by
    rw [Plan.order, List.getElem?_map, hstep]
    rfl
  obtain ⟨hlt, hid⟩ := List.getElem?_eq_some_iff.1 hid
  rw [List.take_succ_eq_append_getElem hlt, hid]

theorem Planned.not_mem_take (h : g.Planned plan) (hstep : plan.tasks[i]? = some step) :
    step.id ∉ plan.order.take i := by
  have hnodup := h.nodup.sublist (List.take_sublist (i + 1) plan.order)
  rw [order_take_succ hstep] at hnodup
  exact fun hmem => (List.nodup_append'.1 hnodup).2.2 hmem (List.mem_singleton_self _)

end TaskGraph

namespace Simulation

variable {σ : Type} {services : Services σ} {s s' : Simulation σ} {g : TaskGraph} {plan : Plan}

theorem Complete.of_onCourse (h : s.Complete) (hcourse : OnCourse s s') : s'.Complete := by
  intro step hstep
  rw [hcourse.plan] at hstep
  rw [TaskGraph.isSome_named?_of_form hcourse.form]
  exact h step hstep

/-- The plan is done up to the task at hand: each task before it has settled, in order. -/
structure Halfway (plan : Plan) (s : Simulation σ) : Prop where
  steady : s.Steady
  complete : s.Complete
  ready : s.walk.status = .ready
  along : s.walk.plan = plan
  done : s.walk.results.map RunResult.task = plan.order.take s.walk.index

theorem Halfway.active (h : s.Halfway plan) : s.walk.refusal? = none := by
  rw [Walk.refusal?, h.ready]

/-- The next task is asked what its sources have left it, and settles. -/
theorem Halfway.advance (h : s.Halfway plan) (hplanned : g.Planned plan) {step : Instruction}
    (hstep : plan.tasks[s.walk.index]? = some step) (services : Services σ) (chooses : Simulation σ → Bool) :
    ∃ request result t index u, Builds services s request ∧ request.task = step.id ∧
      request.inputs = s.walk.inputs step ∧
      s.runDeciding services chooses = (.ok (.settled result), t) ∧ t.passBy result = (.ok index, u) ∧
      result.task = step.id ∧ u.walk.results = s.walk.results ++ [result] ∧
      u.walk.index = s.walk.index + 1 ∧ u.Halfway plan := by
  have hturn : s.walk.current? = some step := by
    rw [Walk.current?, h.along]
    exact hstep
  obtain ⟨n, hhand⟩ := h.complete.atHand h.active hturn
  obtain ⟨result, t, index, u, hrun, hpass, htask, hwalk, hu, hcourse⟩ :=
    h.steady.settles hhand h.ready services chooses
  have hopen : s.walk.status = .awaiting → n.lastRequest = none := by
    rw [h.ready]
    intro hawaiting
    cases hawaiting
  have hothers : ∀ r ∈ s.walk.results, r.task ≠ result.task := by
    intro r hr hsame
    refine hplanned.not_mem_take hstep ?_
    rw [← h.done, ← htask, ← hsame]
    exact List.mem_map_of_mem hr
  rw [Walk.without_of_forall hothers] at hwalk
  have hresults : u.walk.results = s.walk.results ++ [result] := by rw [hwalk]
  have hindex : u.walk.index = s.walk.index + 1 := by rw [hwalk]
  have hready : u.walk.status = .ready := by
    rw [hwalk]
    exact h.ready
  refine ⟨s.request step n, result, t, index, u, builds_iff.2 ⟨step, n, hhand, hopen, rfl⟩,
    h.steady.name hhand, rfl, hrun, hpass, htask, hresults, hindex,
    hu, h.complete.of_onCourse hcourse, hready, hcourse.plan.trans h.along, ?_⟩
  rw [hresults, hindex, List.map_append, h.done, TaskGraph.order_take_succ hstep, ← htask]
  rfl

theorem Halfway.walked (h : s.Halfway plan) (hg : g.WellFormed) (hplanned : g.Planned plan)
    (services : Services σ) (chooses : Simulation σ → Bool) :
    ∃ trail s', Walked services chooses s trail s' ∧
      trail.map (fun p => p.2.task) = plan.order.drop s.walk.index ∧
      ∀ front request result back, trail = front ++ (request, result) :: back →
        request.task = result.task ∧ g.Supplied (s.walk.results ++ front.map Prod.snd) request := by
  have hlength : plan.order.length = plan.tasks.length := List.length_map _
  -- The induction is on the number of tasks that are left.
  induction hleft : plan.tasks.length - s.walk.index generalizing s with
  | zero =>
    have hcurrent : s.walk.current? = none := by
      rw [Walk.current?, h.along]
      exact List.getElem?_eq_none (Nat.le_of_sub_eq_zero hleft)
    refine ⟨[], s, .finished (runDeciding_finished h.active hcurrent services chooses), ?_, ?_⟩
    · rw [List.drop_of_length_le (by omega)]
      rfl
    · intro front request result back hnil
      exact absurd hnil.symm (List.append_ne_nil_of_right_ne_nil _ (List.cons_ne_nil _ _))
  | succ left ih =>
    have hlt : s.walk.index < plan.tasks.length := by omega
    have hstep : plan.tasks[s.walk.index]? = some plan.tasks[s.walk.index] := List.getElem?_eq_getElem hlt
    obtain ⟨request, result, t, index, u, hbuilt, hrequest, hinputs, hrun, hpass, hresult, hresults, hindex, hu⟩ :=
      h.advance hplanned hstep services chooses
    obtain ⟨trail, s', hrest, htasks, hsupplied⟩ := ih hu (by omega)
    refine ⟨(request, result) :: trail, s', .settled hbuilt hrun hpass hrest, ?_, ?_⟩
    · have hbound : s.walk.index < plan.order.length := by omega
      have hid : plan.order[s.walk.index] = result.task := (List.getElem_map _).trans hresult.symm
      rw [List.map_cons, htasks, hindex, List.drop_eq_getElem_cons hbound, hid]
    · intro front other answer back hsplit
      cases front with
      | nil =>
        obtain ⟨hfirst, -⟩ := List.cons.inj hsplit
        obtain ⟨rfl, rfl⟩ := Prod.mk.inj hfirst
        refine ⟨hrequest.trans hresult.symm, ?_⟩
        rw [List.map_nil, List.append_nil]
        exact hplanned.supplied hg hstep h.done hrequest hinputs
      | cons first front =>
        obtain ⟨rfl, hbehind⟩ := List.cons.inj hsplit
        have hlater := hsupplied front other answer back hbehind
        rw [hresults, List.append_assoc] at hlater
        exact hlater

/-- A walk through the plan of a job whose tasks do not wait for one another comes to its
end.  Each task settles once, in the order of the plan, and is given what its sources
have settled with.  At the end every task is idle. -/
theorem walked_of_acyclic (hg : s.job.graph.Built) (hbalanced : ∀ n ∈ s.job.graph.nodes, n.AnglesBalanced)
    (hacyclic : ∀ u, ¬TransGen s.job.graph.Waits u u) (hservices : services.plan = Services.localPlan)
    (chooses : Simulation σ → Bool) (run : String) :
    ∃ plan trail s', Plan.ofSource s.job.compile.source = .ok plan ∧
      s.enter services run = (.ok (), s.entered plan run) ∧
      Walked services chooses (s.entered plan run) trail s' ∧
      trail.map (fun p => p.2.task) = plan.order ∧
      (∀ front request result back, trail = front ++ (request, result) :: back →
        request.task = result.task ∧ s.job.graph.Supplied (front.map Prod.snd) request) ∧
      (∀ n ∈ s'.exit.job.graph.nodes, n.state = .idle) ∧
      ∀ execute, chooses = (fun _ => execute) →
        s.walkThrough services execute run = (trail.map Prod.snd, none, s'.exit) := by
  have hwell := hg.sound.wellFormed
  obtain ⟨plan, hplan⟩ := (Job.plan_compile hg hbalanced).1.2 hacyclic
  have hplanned : s.job.graph.Planned plan := (Job.plan_compile hg hbalanced).2.1 plan hplan
  have hlocal : services.plan s.job.graph.source = .ok plan := by
    rw [← Job.source_compile, hservices, Services.localPlan, hplan]
    rfl
  have henter : s.enter services run = (.ok (), s.entered plan run) := enter_ok hlocal
  have hsteady : (s.entered plan run).Steady := by
    have hentered : (s.enter services run).2.Steady :=
      steady_enter hwell.named (Services.distinct_of_local hservices)
    rwa [henter] at hentered
  have hrun : (s.entered plan run).RunOf services s.job := ⟨TaskGraph.form_resetAll _, rfl, .inr hlocal⟩
  have hhalfway : (s.entered plan run).Halfway plan := ⟨hsteady, hrun.complete hg hbalanced hservices, rfl, rfl, rfl⟩
  obtain ⟨trail, s', hwalked, htasks, hsupplied⟩ := hhalfway.walked hwell hplanned services chooses
  refine ⟨plan, trail, s', hplan, henter, hwalked, htasks, hsupplied, ?_, ?_⟩
  · intro n hn
    obtain ⟨_, _, rfl⟩ := List.mem_map.1 hn
    rfl
  · rintro execute rfl
    have hlength : trail.length = plan.tasks.length := by
      rw [← List.length_map, htasks]
      exact List.length_map _
    rw [walkThrough, henter]
    dsimp only
    rw [hwalked.walkOn_eq (by rw [hlength]; exact Nat.lt_succ_self _)]

theorem walked_of_acyclic_fetchJob :
    fetchJob.graph.Built ∧ (∀ n ∈ fetchJob.graph.nodes, n.AnglesBalanced) ∧
      (∀ u, ¬TransGen fetchJob.graph.Waits u u) ∧
      ∃ results s', (results.map RunResult.task).Perm ["fetch", "parse"] ∧
        (⟨Walk.start, fetchJob, (), []⟩ : Simulation Unit).walkThrough (constantly .null) true "exec-1" =
          (results, none, s') := by
  have hbuilt : fetchJob.graph.Built := ⟨_, rfl⟩
  have hbalanced : ∀ n ∈ fetchJob.graph.nodes, n.AnglesBalanced := by decide
  have hnames : fetchJob.graph.written.map Node.name = ["fetch", "parse"] := by decide
  have hwaits : ∀ u v, fetchJob.graph.Waits u v → u = "fetch" ∧ v = "parse" := by
    intro u v huv
    have hpairs : ∀ u ∈ ["fetch", "parse"], ∀ v ∈ ["fetch", "parse"], fetchJob.graph.Waits u v →
        u = "fetch" ∧ v = "parse" := by decide +kernel
    refine hpairs u (hnames ▸ hbuilt.sound.wellFormed.waits_written huv) v ?_ huv
    rw [← hnames]
    cases huv with
    | edge he => exact (hbuilt.sound.wellFormed.ends_written he).2
    | token _ hn => exact List.mem_map_of_mem hn
  have hacyclic : ∀ u, ¬TransGen fetchJob.graph.Waits u u := by
    intro u hcycle
    obtain ⟨_, hfirst, -⟩ := TransGen.head'_iff.1 hcycle
    obtain ⟨_, -, hlast⟩ := TransGen.tail'_iff.1 hcycle
    have hsame := (hwaits _ _ hfirst).1.symm.trans (hwaits _ _ hlast).2
    exact absurd hsame (by decide)
  have hservices : (constantly .null).plan = Services.localPlan := rfl
  refine ⟨hbuilt, hbalanced, hacyclic, ?_⟩
  obtain ⟨plan, trail, s', hplan, -, -, htasks, -, -, hthrough⟩ := walked_of_acyclic
    (s := ⟨Walk.start, fetchJob, (), []⟩) hbuilt hbalanced hacyclic hservices (fun _ => true) "exec-1"
  have hplanned := (Job.plan_compile hbuilt hbalanced).2.1 plan hplan
  refine ⟨trail.map Prod.snd, s'.exit, ?_, hthrough true rfl⟩
  rw [List.map_map, ← hnames]
  exact htasks ▸ hplanned.names

end Simulation
end JobPipeline
