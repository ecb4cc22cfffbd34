import JobPipeline.Proofs.Simulation.Consistency

/-
The variables that a task sees.

They are carried from result to result: a task starts from those of the last result
and has the value of every success put over them.  A value that moving back discards
is still among the variables of the results behind it, so the variables are those of
the job with the successes over them just as long as only the last result is
discarded, or one that makes no difference.
-/
namespace JobPipeline

namespace Walk

/-- The values of the successes, by their tasks. -/
def successes (results : List RunResult) : List (String × Json) :=
  (results.filter fun r => !r.isError).map fun r => (r.task, r.value)

/-- The variables of the job, and over them the successes that are kept. -/
def live (w : Walk) (config : JobConfig) : Vars := config.jobVars.insertAll (successes w.results)

section Overlay

variable {base : Vars} {results : List RunResult} {r : RunResult} {task : String}

theorem successes_append (results more : List RunResult) :
    successes (results ++ more) = successes results ++ successes more := by
  rw [successes, List.filter_append, List.map_append]
  rfl

theorem mem_successes (hr : r ∈ results) (hok : r.isError = false) : (r.task, r.value) ∈ successes results :=
  List.mem_map_of_mem (List.mem_filter.2 ⟨hr, by rw [hok]; rfl⟩)

theorem nodup_successes (h : (results.map RunResult.task).Nodup) : ((successes results).map Prod.fst).Nodup := by
  rw [successes, List.map_map]
  exact h.sublist (List.filter_sublist.map _)

theorem find?_overlay (h : (results.map RunResult.task).Nodup) (hr : r ∈ results) (hok : r.isError = false) :
    (base.insertAll (successes results)).find? r.task = some r.value :=
  Dict.find?_insertAll_of_mem (nodup_successes h) (mem_successes hr hok) base

theorem find?_overlay_of_forall (h : ∀ r ∈ results, r.task = task → r.isError = true) :
    (base.insertAll (successes results)).find? task = base.find? task := by
  refine Dict.find?_insertAll_of_not_mem (fun hmem => ?_) base
  rw [successes, List.map_map] at hmem
  obtain ⟨r, hr, htask⟩ := List.mem_map.1 hmem
  obtain ⟨hr, hok⟩ := List.mem_filter.1 hr
  rw [h r hr htask] at hok
  cases hok

theorem success_or_failed (results : List RunResult) (task : String) :
    (∃ r ∈ results, r.isError = false ∧ r.task = task) ∨ ∀ r ∈ results, r.task = task → r.isError = true := by
  by_cases hsuccess : ∃ r ∈ results, r.isError = false ∧ r.task = task
  · exact .inl hsuccess
  · refine .inr fun r hr htask => ?_
    cases hok : r.isError with
    | true => rfl
    | false => exact absurd ⟨r, hr, hok, htask⟩ hsuccess

/-- What was put over the variables once may be put over them again. -/
theorem overlay_overlay (h : (results.map RunResult.task).Nodup) :
    (base.insertAll (successes results)).insertAll (successes results) = base.insertAll (successes results) := by
  refine Dict.eq_of_find? fun key => ?_
  obtain ⟨r, hr, hok, rfl⟩ | hfailed := success_or_failed results key
  · rw [find?_overlay h hr hok, find?_overlay h hr hok]
  · exact find?_overlay_of_forall hfailed

/-- A result that makes no difference to the variables. -/
def Inert (base : Vars) (r : RunResult) : Prop := r.isError = true ∨ base.find? r.task = some r.value

instance (base : Vars) (r : RunResult) : Decidable (Inert base r) := inferInstanceAs (Decidable (_ ∨ _))

theorem without_of_forall (h : ∀ r ∈ results, r.task ≠ task) : without task results = results :=
  List.filter_eq_self.2 fun r hr => decide_eq_true (h r hr)

theorem without_concat_self (h : r.task = task) : without task (results ++ [r]) = without task results := by
  rw [without, List.filter_append, List.filter_cons_of_neg (by rw [h]; simp), List.filter_nil, List.append_nil]
  rfl

theorem without_concat_of_ne (h : r.task ≠ task) :
    without task (results ++ [r]) = without task results ++ [r] := by
  rw [without, List.filter_append, List.filter_cons_of_pos (by simpa using h), List.filter_nil]
  rfl

theorem overlay_without (h : (results.map RunResult.task).Nodup)
    (hinert : ∀ r ∈ results, r.task = task → Inert base r) :
    base.insertAll (successes (without task results)) = base.insertAll (successes results) := by
  have hkept : ((without task results).map RunResult.task).Nodup := h.sublist (List.filter_sublist.map _)
  refine Dict.eq_of_find? fun key => ?_
  obtain ⟨r, hr, hok, rfl⟩ | hfailed := success_or_failed results key
  · rw [find?_overlay h hr hok]
    by_cases htask : r.task = task
    · have hnone : ∀ r' ∈ without task results, r'.task = r.task → r'.isError = true := fun r' hr' hsame =>
        absurd (hsame.trans htask) (mem_without.1 hr').2
      rw [find?_overlay_of_forall hnone]
      exact (hinert r hr htask).resolve_left (by rw [hok]; nofun)
    · exact find?_overlay hkept (mem_without.2 ⟨hr, htask⟩) hok
  · rw [find?_overlay_of_forall hfailed]
    exact find?_overlay_of_forall fun r hr => hfailed r (mem_without.1 hr).1

/-! ## What results carry on -/

/-- Each result carries the variables with all the successes up to its own. -/
inductive Carries (base : Vars) : List RunResult → Prop
  | nil : Carries base []
  | snoc {results : List RunResult} {r : RunResult} (front : Carries base results)
      (last : r.vars = base.insertAll (successes (results ++ [r]))) : Carries base (results ++ [r])

theorem Carries.vars {w : Walk} {config : JobConfig} (h : Carries config.jobVars w.results)
    (hsingle : (w.results.map RunResult.task).Nodup) : w.vars config = w.live config := by
  rw [Walk.vars, live]
  show Dict.insertAll _ (successes w.results) = _
  generalize w.results = results at h hsingle ⊢
  cases h with
  | nil => rfl
  | @snoc results r front last =>
    rw [List.getLast?_concat]
    show r.vars.insertAll _ = _
    rw [last, overlay_overlay hsingle]

/-- The last result may be dropped, and one that makes no difference. -/
theorem Carries.without (h : Carries base results) (hsingle : (results.map RunResult.task).Nodup)
    (hinert : ∀ r ∈ results, r.task = task → results.getLast? = some r ∨ Inert base r) :
    Carries base (without task results) := by
  induction h with
  | nil => exact .nil
  | @snoc results r front last ih =>
    have hsplit := List.nodup_append'.1 (List.map_append ▸ hsingle)
    by_cases htask : r.task = task
    · -- No other result is of this task.
      have hothers : ∀ r' ∈ results, r'.task ≠ task := fun r' hr' hsame =>
        hsplit.2.2 (List.mem_map_of_mem hr') (List.mem_singleton.2 (hsame.trans htask.symm))
      rw [without_concat_self htask, without_of_forall hothers]
      exact front
    · have hinert' : ∀ r' ∈ results ++ [r], r'.task = task → Inert base r' := fun r' hr' hsame => by
        refine (hinert r' hr' hsame).resolve_left fun hend => ?_
        rw [List.getLast?_concat] at hend
        exact htask (Option.some.inj hend ▸ hsame)
      have hrest := ih hsplit.1 fun r' hr' hsame => .inr (hinert' r' (List.mem_append_left _ hr') hsame)
      rw [without_concat_of_ne htask]
      refine hrest.snoc ?_
      rw [last, ← overlay_without hsingle hinert', without_concat_of_ne htask]

/-- A result may be kept behind failures of its task that are dropped for it. -/
theorem Carries.record (h : Carries base results) (hsingle : (results.map RunResult.task).Nodup)
    (hfailed : ∀ r' ∈ results, r'.task = r.task → r'.isError = true)
    (hvars : r.vars = if r.isError then base.insertAll (successes results)
      else (base.insertAll (successes results)).insert r.task r.value) :
    Carries base (Walk.without r.task results ++ [r]) := by
  have hinert : ∀ r' ∈ results, r'.task = r.task → Inert base r' := fun r' hr' hsame => .inl (hfailed r' hr' hsame)
  have hfront : Carries base (Walk.without r.task results) :=
    h.without hsingle fun r' hr' hsame => .inr (hinert r' hr' hsame)
  refine hfront.snoc ?_
  have hall : base.insertAll (successes (Walk.without r.task results ++ [r])) =
      (base.insertAll (successes results)).insertAll (successes [r]) := by
    rw [successes_append, ← overlay_without hsingle hinert]
    exact List.foldl_append
  rw [hall, hvars]
  cases hok : r.isError with
  | true =>
    have hnone : successes [r] = [] := by simp [successes, hok]
    rw [hnone]
    rfl
  | false =>
    have hone : successes [r] = [(r.task, r.value)] := by simp [successes, hok]
    rw [hone]
    rfl

/-- A success that is dropped while another result is the last is still carried. -/
theorem Carries.find?_last (h : Carries base results) (hsingle : (results.map RunResult.task).Nodup)
    (hr : r ∈ results) (hok : r.isError = false) {last : RunResult} (hlast : results.getLast? = some last) :
    last.vars.find? r.task = some r.value := by
  cases h with
  | nil => cases hr
  | @snoc front z hfront hvars =>
    rw [List.getLast?_concat] at hlast
    obtain rfl := Option.some.inj hlast
    rw [hvars]
    exact find?_overlay hsingle hr hok

end Overlay

variable {w w' : Walk} {config : JobConfig}

/-- Moving back makes no difference but for the success that it discards: this is the last
result, or the job has the same value under its name. -/
def Clean (w : Walk) (config : JobConfig) : Prop :=
  ∀ r ∈ w.results, r ∉ w.retained → w.results.getLast? = some r ∨ Inert config.jobVars r

instance (w : Walk) (config : JobConfig) : Decidable (w.Clean config) :=
  inferInstanceAs (Decidable (∀ r ∈ w.results, r ∉ w.retained → _ ∨ _))

theorem retained_cases (w : Walk) :
    w.retained = w.results ∨
      ∃ step, 0 < w.index ∧ w.plan.tasks[w.index - 1]? = some step ∧ w.retained = without step.id w.results := by
  rw [retained]
  split
  · exact .inl rfl
  · next index hindex =>
    cases hstep : w.plan.tasks[index]? with
    | none => exact .inl rfl
    | some step => exact .inr ⟨step, hindex ▸ Nat.succ_pos index, hindex ▸ hstep, rfl⟩

theorem Carries.retained (h : Carries config.jobVars w.results) (hsingle : (w.results.map RunResult.task).Nodup)
    (hclean : w.Clean config) : Carries config.jobVars w.retained := by
  obtain hall | ⟨step, -, -, hretained⟩ := w.retained_cases
  · exact hall ▸ h
  · rw [hretained]
    refine h.without hsingle fun r hr htask => hclean r hr fun hkept => ?_
    rw [hretained] at hkept
    exact (mem_without.1 hkept).2 htask

/-- The variables show a success that was discarded from between the results. -/
theorem Carries.vars_ne (h : Carries config.jobVars w.results) (hsingle : (w.results.map RunResult.task).Nodup)
    {r : RunResult} (hr : r ∈ w.results) (hlast : w.results.getLast? ≠ some r)
    (hinert : ¬Inert config.jobVars r) (hresults : w'.results = Walk.without r.task w.results) :
    w'.vars config ≠ w'.live config := by
  have hok : r.isError = false := Bool.eq_false_iff.2 fun herror => hinert (.inl herror)
  have hnone : ∀ r' ∈ w'.results, r'.task = r.task → r'.isError = true := fun r' hr' hsame => by
    rw [hresults] at hr'
    exact absurd hsame (mem_without.1 hr').2
  obtain ⟨front, z, hsplit⟩ := List.eq_nil_or_concat w.results |>.resolve_left (List.ne_nil_of_mem hr)
  rw [List.concat_eq_append] at hsplit
  rw [hsplit, List.getLast?_concat] at hlast
  have hz : z.task ≠ r.task := by
    intro hsame
    rw [hsplit] at hr hsingle
    exact hlast (congrArg some (List.inj_on_of_nodup_map hsingle (by simp) hr hsame))
  have hend : w'.results.getLast? = some z := by
    rw [hresults, hsplit, without_concat_of_ne hz, List.getLast?_concat]
  have hcarried : z.vars.find? r.task = some r.value :=
    h.find?_last hsingle hr hok (by rw [hsplit, List.getLast?_concat])
  intro hsame
  have hfound : (w'.vars config).find? r.task = some r.value := by
    rw [Walk.vars, hend]
    exact (find?_overlay_of_forall hnone).trans hcarried
  have hlive : (w'.live config).find? r.task = config.jobVars.find? r.task := find?_overlay_of_forall hnone
  rw [hsame, hlive] at hfound
  exact hinert (.inr hfound)

end Walk

/-- No answer brings variables of its own. -/
def Services.Bare {σ : Type} (services : Services σ) : Prop :=
  ∀ request state response, (services.evaluate request state).1 = .ok response → response.vars.isEmpty = true

theorem Services.Bare.respond {σ : Type} {services : Services σ} (h : services.Bare) (request : Request)
    (state : σ) : (services.respond request state).vars.isEmpty = true := by
  rw [Services.respond]
  split
  · next response hanswer => exact h request state response hanswer
  · rfl

theorem Node.outcome_vars {n : Node} {response : Response} {request : Request}
    (hrequest : n.lastRequest = some request) (hbare : response.vars.isEmpty = true) :
    (n.outcome response).vars = if (n.outcome response).isError then request.vars
      else request.vars.insert (n.outcome response).task (n.outcome response).value := by
  rw [outcome, if_pos hbare, hrequest]
  cases response.error <;> rfl

theorem Node.isEmpty_skipResponse (n : Node) : n.skipResponse.vars.isEmpty = true := by
  rw [skipResponse]
  split <;> rfl

namespace Simulation

variable {σ : Type} {services : Services σ} {s s' : Simulation σ} {step : Instruction} {n m : Node}

/-- Running the task at hand builds a request, and leaves it with the task. -/
def Builds (services : Services σ) (s : Simulation σ) (request : Request) : Prop :=
  ∃ step n n', s.AtHand step n ∧ s.pendingRequest? n.id = none ∧
    (s.runCurrent services).2.job.graph.node? n.id = some n' ∧ n'.lastRequest = some request

theorem lastRequest_runTask (h : s.job.graph.node? n.id = some n) (step : Instruction) :
    ∃ n', (runTask services step n.id s).2.job.graph.node? n.id = some n' ∧
      n'.lastRequest = some (s.request step n) := by
  have hbegun := node?_put_self (m := s.begun step n) h
  rw [runTask_eq h]
  split
  · exact ⟨s.begun step n, hbegun, rfl⟩
  · exact ⟨(s.begun step n).answered _, node?_put_self (m := (s.begun step n).answered _) hbegun, rfl⟩

theorem builds_iff {request : Request} :
    Builds services s request ↔
      ∃ step n, s.AtHand step n ∧ (s.walk.status = .awaiting → n.lastRequest = none) ∧
        request = s.request step n := by
  have hpending : ∀ {step n}, s.AtHand step n →
      (s.pendingRequest? n.id = none ↔ (s.walk.status = .awaiting → n.lastRequest = none)) := by
    intro step n hhand
    rw [pendingRequest?, hhand.node?]
    by_cases hstatus : s.walk.status = .awaiting
    · rw [if_pos hstatus]
      exact ⟨fun h _ => h, fun h => h hstatus⟩
    · rw [if_neg hstatus]
      exact ⟨fun _ h => absurd h hstatus, fun _ => rfl⟩
  constructor
  · rintro ⟨step, n, n', hhand, hnone, hnode, hrequest⟩
    have hopen := (hpending hhand).1 hnone
    obtain ⟨found, hfound, hleft⟩ := lastRequest_runTask hhand.node? step
    rw [runCurrent_begins hhand hopen, hfound] at hnode
    obtain rfl := Option.some.inj hnode
    exact ⟨step, n, hhand, hopen, Option.some.inj (hrequest.symm.trans hleft)⟩
  · rintro ⟨step, n, hhand, hopen, rfl⟩
    obtain ⟨n', hfound, hleft⟩ := lastRequest_runTask hhand.node? step
    exact ⟨step, n, n', hhand, (hpending hhand).2 hopen, by rw [runCurrent_begins hhand hopen, hfound], hleft⟩

/-- The variables of now are those of the job with the successes over them, and so are
those that a side effect waits with. -/
structure Exact (s : Simulation σ) : Prop where
  steady : s.Steady
  carries : Walk.Carries s.job.config.jobVars s.walk.results
  waits : s.walk.status = .awaiting → ∀ step n request, s.AtHand step n → n.lastRequest = some request →
    request.vars = s.walk.live s.job.config

theorem Exact.vars (h : s.Exact) : s.walk.vars s.job.config = s.walk.live s.job.config :=
  h.carries.vars h.steady.single

/-- The results of the task at hand are failures. -/
theorem Steady.failed (h : s.Steady) (hhand : s.AtHand step n) {r : RunResult} (hr : r ∈ s.walk.results)
    (htask : r.task = step.id) : r.isError = true := by
  cases hok : r.isError with
  | true => rfl
  | false => exact absurd htask (h.ne_of_keeps hhand (h.keeps r hr hok))

/-- The task at hand has been answered what it was asked with the variables of now. -/
theorem Exact.settle (h : s.Exact) (hhand : s.AtHand step n) (hform : m.form = n.form) {request : Request}
    (hrequest : m.lastRequest = some request) (hvars : request.vars = s.walk.live s.job.config)
    {response : Response} (hbare : response.vars.isEmpty = true) (hsteady : s'.Steady)
    (hwalk : s'.walk = { s.walk with status := .ready }.record (m.outcome response))
    (hconfig : s'.job.config = s.job.config) : s'.Exact := by
  have hname : (m.outcome response).task = step.id :=
    (m.outcome_task response).trans ((Node.name_of_form hform).trans (h.steady.name hhand))
  have hcarries := h.carries.record (r := m.outcome response) h.steady.single
    (fun r' hr' hsame => h.steady.failed hhand hr' (hsame.trans hname))
    (by rw [Node.outcome_vars hrequest hbare, hvars]; rfl)
  refine ⟨hsteady, ?_, fun hstatus => ?_⟩
  · rw [hconfig, hwalk]
    exact hcarries
  · rw [hwalk] at hstatus
    cases hstatus

theorem Exact.runTask (h : s.Exact) (hbare : services.Bare) (hhand : s.AtHand step n)
    (hready : s.walk.status = .ready) : (runTask services step n.id s).2.Exact := by
  have hsteady : (Simulation.runTask services step n.id s).2.Steady := h.steady.runTask hhand hready
  rw [runTask_eq hhand.node?] at hsteady ⊢
  by_cases heffect : n.kind.hasSideEffect = true
  · rw [if_pos heffect] at hsteady ⊢
    refine ⟨hsteady, h.carries, fun _ step' n' request hhand' hrequest => ?_⟩
    obtain rfl : step = step' := Option.some.inj (hhand.turn.symm.trans hhand'.turn)
    have htask := Steady.named?_put hhand (m := s.begun step n) rfl
    obtain rfl : s.begun step n = n' := Option.some.inj (htask.symm.trans hhand'.task)
    obtain rfl : s.request step n = request := Option.some.inj hrequest
    exact h.vars
  · rw [if_neg heffect] at hsteady ⊢
    have hown := hbare.respond (s.request step n) s.state
    refine h.settle hhand (m := s.begun step n) rfl rfl h.vars hown hsteady ?_ rfl
    rw [walk_settled, walk_called, walk_put, ← hready]

theorem Exact.run (h : s.Exact) (hbare : services.Bare) : (s.runCurrent services).2.Exact := by
  obtain heq | ⟨_, _, hhand, hopen, heq⟩ := runCurrent_left services s
  · rw [heq]
    exact h
  · rw [heq]
    exact h.runTask hbare hhand (h.steady.ready hhand hopen)

theorem Exact.execute (h : s.Exact) (hbare : services.Bare) : (s.execute services).2.Exact := by
  have hsteady := h.steady.execute services
  by_cases hstatus : s.walk.status = .awaiting
  · obtain ⟨step, n, request, hhand, hstate, hrequest⟩ := h.steady.atHand hstatus
    rw [execute_eq hhand hstatus hstate hrequest] at hsteady ⊢
    exact h.settle hhand (m := n.executing) rfl hrequest (h.waits hstatus step n request hhand hrequest)
      (hbare.respond _ _) hsteady rfl rfl
  · rcases execute_cases services s with ⟨_, heq⟩ | ⟨_, _, _, hawaiting, _⟩
    · rw [heq]
      exact h
    · exact absurd hawaiting hstatus

theorem Exact.skip (h : s.Exact) : s.skip.2.Exact := by
  have hsteady := h.steady.skip
  by_cases hstatus : s.walk.status = .awaiting
  · obtain ⟨step, n, request, hhand, hstate, hrequest⟩ := h.steady.atHand hstatus
    rw [skip_eq hhand hstatus hstate] at hsteady ⊢
    exact h.settle hhand (m := n) rfl hrequest (h.waits hstatus step n request hhand hrequest)
      n.isEmpty_skipResponse hsteady rfl rfl
  · rcases skip_cases s with ⟨_, heq⟩ | ⟨_, _, _, hawaiting, _⟩
    · rw [heq]
      exact h
    · exact absurd hawaiting hstatus

theorem Exact.next (h : s.Exact) : s.next.2.Exact := by
  have hsteady := h.steady.next
  cases hrefusal : s.walk.refusal? with
  | some error =>
    rw [next_refused hrefusal]
    exact h
  | none =>
    rw [next_eq hrefusal] at hsteady ⊢
    exact ⟨hsteady, h.carries, nofun⟩

theorem Exact.previous (h : s.Exact) (hclean : s.walk.Clean s.job.config) : s.previous.2.Exact := by
  have hsteady := h.steady.previous
  cases hrefusal : s.walk.refusal? with
  | some error =>
    rw [previous_refused hrefusal]
    exact h
  | none =>
    rw [previous_eq hrefusal] at hsteady ⊢
    exact ⟨hsteady, h.carries.retained h.steady.single hclean, nofun⟩

/-- Behind a step back that is not clean, the request that is built next is not exact. -/
theorem Exact.not_exact_previous (h : s.Exact) (hdirty : ¬s.walk.Clean s.job.config) (services : Services σ) :
    ∃ request, Builds services s.previous.2 request ∧ request.vars ≠ s.previous.2.walk.live s.job.config := by
  simp only [Walk.Clean, not_forall, not_or] at hdirty
  obtain ⟨r, hr, hdropped, hlast, hinert⟩ := hdirty
  have hok : r.isError = false := Bool.eq_false_iff.2 fun herror => hinert (.inl herror)
  have hactive : s.walk.refusal? = none := by
    by_contra hrefused
    rw [(h.steady.idle hrefused).2.1] at hr
    cases hr
  obtain hall | ⟨step, -, hstep, hretained⟩ := s.walk.retained_cases
  · exact absurd (hall ▸ hr) hdropped
  · have htask : r.task = step.id := by
      by_contra hne
      exact hdropped (hretained ▸ Walk.mem_without.2 ⟨hr, hne⟩)
    obtain ⟨_, n, -, -, hnamed, -⟩ := h.steady.keeps r hr hok
    rw [previous_eq hactive]
    have hhand : (s.stood (s.walk.index - 1) s.walk.retained).AtHand step n := ⟨rfl, hstep, htask ▸ hnamed⟩
    exact ⟨_, builds_iff.2 ⟨step, n, hhand, nofun, rfl⟩,
      h.carries.vars_ne h.steady.single hr hlast hinert (htask ▸ hretained)⟩

theorem exact_fresh (hsteady : s.Steady) (hresults : s.walk.results = []) (hstatus : s.walk.status ≠ .awaiting) :
    s.Exact := ⟨hsteady, hresults ▸ .nil, fun hawaiting => absurd hawaiting hstatus⟩

theorem exact_enter {run : String} (hindexed : s.job.graph.Indexed) (hservices : services.Distinct) :
    (s.enter services run).2.Exact := by
  have hsteady : (s.enter services run).2.Steady := steady_enter hindexed hservices
  cases hplan : services.plan s.job.graph.source with
  | ok plan =>
    rw [enter_ok hplan] at hsteady ⊢
    exact exact_fresh hsteady rfl nofun
  | error error =>
    rw [enter_error hplan] at hsteady ⊢
    exact exact_fresh hsteady rfl (by cases error <;> nofun)

theorem Exact.move (h : s.Exact) (hservices : services.Distinct) (hbare : services.Bare) {m : Move}
    (hclean : m = .previous → s.walk.Clean s.job.config) : (s.move services m).2.Exact := by
  cases m with
  | enter run => exact exact_enter h.steady.indexed hservices
  | run => exact h.run hbare
  | execute => exact h.execute hbare
  | skip => exact h.skip
  | next => exact h.next
  | previous => exact h.previous (hclean rfl)
  | exit => exact exact_fresh (steady_exit h.steady.indexed) rfl nofun

theorem Exact.vars_of_builds (h : s.Exact) {request : Request} (hbuilds : Builds services s request) :
    request.vars = s.walk.live s.job.config := by
  obtain ⟨step, n, -, -, rfl⟩ := builds_iff.1 hbuilds
  exact h.vars

/-- A run keeps exact, request by request, if each step back in it is clean. -/
theorem Exact.after_iff (h : s.Exact) (hservices : services.Distinct) (hbare : services.Bare) (moves : List Move) :
    (∀ front, front <+: moves → ∀ request, Builds services (s.after services front) request →
      request.vars = (s.after services front).walk.live s.job.config) ↔
    ∀ front, front ++ [.previous] <+: moves → (s.after services front).walk.Clean s.job.config := by
  induction moves generalizing s with
  | nil =>
    constructor
    · intro _ front hfront
      exact absurd (List.prefix_nil.1 hfront) (List.append_ne_nil_of_right_ne_nil _ (List.cons_ne_nil _ _))
    · intro _ front hfront request hbuilds
      rw [List.prefix_nil.1 hfront] at hbuilds ⊢
      exact h.vars_of_builds hbuilds
  | cons m moves ih =>
    have hconfig := config_move services s m
    by_cases hdirty : m = .previous ∧ ¬s.walk.Clean s.job.config
    · obtain ⟨rfl, hdirty⟩ := hdirty
      have hback : [.previous] <+: Move.previous :: moves := List.prefix_append [.previous] moves
      constructor
      · intro hall
        obtain ⟨request, hbuilds, hne⟩ := h.not_exact_previous hdirty services
        exact absurd (hall [.previous] hback request hbuilds) (hconfig ▸ hne)
      · intro hall
        exact absurd (hall [] hback) hdirty
    · have hmoved : (s.move services m).2.Exact :=
        h.move hservices hbare fun hm => by_contra fun hne => hdirty ⟨hm, hne⟩
      have hrest := ih hmoved
      rw [hconfig] at hrest
      constructor
      · intro hall front hfront
        cases front with
        | nil =>
          obtain ⟨rfl, -⟩ := List.cons_prefix_cons.1 hfront
          exact by_contra fun hne => hdirty ⟨rfl, hne⟩
        | cons m' front =>
          obtain ⟨rfl, hback⟩ := List.cons_prefix_cons.1 hfront
          exact hrest.1 (fun front hfront => hall (m' :: front) (List.cons_prefix_cons.2 ⟨rfl, hfront⟩)) front hback
      · intro hall front hfront
        cases front with
        | nil => exact fun request hbuilds => h.vars_of_builds hbuilds
        | cons m' front =>
          obtain ⟨rfl, hbefore⟩ := List.cons_prefix_cons.1 hfront
          exact hrest.2 (fun front hfront => hall (m' :: front) (List.cons_prefix_cons.2 ⟨rfl, hfront⟩)) front hbefore

/-- From the begin of a run on, the requests show the variables of the job and the
successes of the moment, and nothing else, exactly where no step back discards a success
that other results carry. -/
theorem vars_of_requests_iff (hindexed : s.job.graph.Indexed) (hservices : services.plan = Services.localPlan)
    (hbare : services.Bare) (run : String) (moves : List Move) :
    let after := fun front => (s.enter services run).2.after services front
    (∀ front, front <+: moves → ∀ request, Builds services (after front) request →
      request.vars = (after front).walk.live s.job.config) ↔
    ∀ front, front ++ [.previous] <+: moves → (after front).walk.Clean s.job.config := by
  have hdistinct := Services.distinct_of_local hservices
  have hconfig : (s.enter services run).2.job.config = s.job.config := config_move services s (.enter run)
  exact hconfig ▸ (exact_enter hindexed hdistinct).after_iff hdistinct hbare moves

/-- The same answer to every request but those to parse, which cannot be made. -/
def withoutParser (value : Json) : Services Unit where
  plan := Services.localPlan
  evaluate := fun request _ =>
    if request.kind = .jsonParse then (.error (.collaborator (.unreachable "down")), ())
    else (.ok (.ofValue value), ())

/-- A step back over the last result leaves the requests exact.  One over a success with a
failure behind it does not: the failure carries the success on. -/
theorem vars_of_requests_iff_fetchJob :
    fetchJob.graph.Indexed ∧ (withoutParser (.bool true)).Bare ∧
      let services := withoutParser (.bool true)
      let after := fun front =>
        ((⟨Walk.start, fetchJob, (), []⟩ : Simulation Unit).enter services "exec-1").2.after services front
      (∀ front, front <+: [.run, .execute, .previous, .run] → ∀ request, Builds services (after front) request →
        request.vars = (after front).walk.live fetchJob.config) ∧
      ¬∀ front, front <+: [.run, .execute, .run, .previous] → ∀ request, Builds services (after front) request →
        request.vars = (after front).walk.live fetchJob.config := by
  have hbuilt : fetchJob.graph.Built := ⟨_, rfl⟩
  have hindexed : fetchJob.graph.Indexed := hbuilt.sound.wellFormed.named
  have hbare : (withoutParser (.bool true)).Bare := by
    intro request state response hanswer
    by_cases hparse : request.kind = .jsonParse
    · simp [withoutParser, hparse] at hanswer
    · simp only [withoutParser, hparse, if_false, Except.ok.injEq] at hanswer
      rw [← hanswer]
      rfl
  refine ⟨hindexed, hbare, (vars_of_requests_iff hindexed rfl hbare "exec-1" _).2 fun front hfront => ?_,
    fun hall => ?_⟩
  · -- Of the moves only the beginnings have to be looked at.
    have hbefore : front ∈ [Move.run, .execute, .previous, .run].inits :=
      (List.mem_inits ..).2 ((List.prefix_append ..).trans hfront)
    revert hfront
    revert front
    decide +kernel
  · have hclean := (vars_of_requests_iff hindexed rfl hbare "exec-1" _).1 hall [.run, .execute, .run] List.prefix_rfl
    exact absurd hclean (by decide +kernel)

end Simulation
end JobPipeline
