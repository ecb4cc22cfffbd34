import JobPipeline.Proofs.Simulation.Asking

/-
What a walk that waits will execute.

A walk waits for the task at hand, and the task keeps the request that it was asked
with, whatever is edited.  So what is executed is what was asked for last, but for one
way out: a walk does not notice that the task it waits for is gone.  If a new task has
its name, this is run and passed by, and the walk still waits, now for a task behind it
that may have been asked for long before.
-/
namespace JobPipeline
namespace Simulation

section

variable {σ : Type} {services : Services σ} {s : Simulation σ} {step : Instruction} {n : Node} {id : String}
  {request : Request} {action : Action σ}

/-- Each of the actions is made where `p` holds. -/
def Throughout (p : Simulation σ → Action σ → Prop) : Simulation σ → List (Action σ) → Prop
  | _, [] => True
  | s, action :: actions => p s action ∧ Throughout p (s.act action) actions

/-- One of the actions is made where `p` holds. -/
def Sometime (p : Simulation σ → Action σ → Prop) : Simulation σ → List (Action σ) → Prop
  | _, [] => False
  | s, action :: actions => p s action ∨ Sometime p (s.act action) actions

/-- The action renames no task, and it does not ask for a side effect. -/
def Quiet (s : Simulation σ) (action : Action σ) : Prop :=
  (∀ id new policy, action ≠ .edit (.rename id new policy)) ∧
    ∀ services, action = .move services .run → ∀ request, (s.runCurrent services).1 ≠ .ok (.awaiting request)

/-- The action runs a task, and the task settles. -/
def Settles (s : Simulation σ) (action : Action σ) : Prop :=
  ∃ services, action = .move services .run ∧ ∃ result, (s.runCurrent services).1 = .ok (.settled result)

/-- The action takes a task out of the graph. -/
def Takes (id : String) (s : Simulation σ) (action : Action σ) : Prop :=
  s.job.graph.hasNode id = true ∧ (s.act action).job.graph.hasNode id = false

/-- Executing now has the evaluator asked this. -/
def Executes (s : Simulation σ) (request : Request) : Prop :=
  ∃ step n, s.AtHand step n ∧ s.walk.status = .awaiting ∧ n.state = .pendingSideEffect ∧
    n.lastRequest = some request

theorem sound_act (h : s.job.graph.Sound) (action : Action σ) : (s.act action).job.graph.Sound := by
  cases action with
  | move services m => exact h.of_form (form_move services s m)
  | edit edit => exact h.after edit

/-- A quiet run changes nothing, or settles a task without a side effect. -/
theorem Quiet.run_cases (hquiet : Quiet s (.move services .run)) :
    (s.runCurrent services).2 = s ∨
      ∃ step n response, s.AtHand step n ∧ (s.walk.status = .awaiting → n.lastRequest = none) ∧
        s.runCurrent services = (.ok (.settled ((s.begun step n).outcome response)),
          ((s.put (s.begun step n)).called services (s.request step n)).settled (s.begun step n) response) := by
  rcases runCurrent_cases services s with ⟨_, h⟩ | h | ⟨_, _, _, request, _, _, h⟩ | ⟨step, n, hhand, hopen, h⟩
  · exact .inl (by rw [h])
  · exact .inl (by rw [h])
  · exact absurd (by rw [h]) (hquiet.2 services rfl request)
  · rw [runTask_eq hhand.node?] at h
    by_cases heffect : n.kind.hasSideEffect = true
    · rw [if_pos heffect] at h
      exact absurd (by rw [h]) (hquiet.2 services rfl (s.request step n))
    · rw [if_neg heffect] at h
      exact .inr ⟨step, n, _, hhand, hopen, h⟩

theorem status_of_refusal {error : JobError} (hrefusal : s.walk.refusal? = some error) :
    s.walk.status ≠ .awaiting := by
  intro hstatus
  rw [refusal?_of_awaiting hstatus] at hrefusal
  cases hrefusal

theorem status_enter (services : Services σ) (s : Simulation σ) (run : String) :
    (s.enter services run).2.walk.status ≠ .awaiting := by
  cases hplan : services.plan s.job.graph.source with
  | ok plan => rw [enter_ok hplan]; nofun
  | error error => rw [enter_error hplan]; cases error <;> nofun

theorem status_next (s : Simulation σ) : s.next.2.walk.status ≠ .awaiting := by
  cases hrefusal : s.walk.refusal? with
  | some error => rw [next_refused hrefusal]; exact status_of_refusal hrefusal
  | none => rw [next_eq hrefusal]; nofun

theorem status_previous (s : Simulation σ) : s.previous.2.walk.status ≠ .awaiting := by
  cases hrefusal : s.walk.refusal? with
  | some error => rw [previous_refused hrefusal]; exact status_of_refusal hrefusal
  | none => rw [previous_eq hrefusal]; nofun

/-- A move runs the task at hand, changes nothing, or ends the waiting.  What is left is a
task at hand without a request, which is marked as executing while the walk still waits. -/
theorem move_cases (services : Services σ) (s : Simulation σ) (m : Move) :
    m = .run ∨ (s.move services m).2 = s ∨ (s.move services m).2.walk.status ≠ .awaiting ∨
      ∃ step n, s.AtHand step n ∧ s.walk.status = .awaiting ∧ n.state = .pendingSideEffect ∧
        n.lastRequest = none ∧ (s.move services m).2 = s.put n.executing := by
  cases m with
  | run => exact .inl rfl
  | execute =>
    refine .inr ?_
    show (s.execute services).2 = s ∨ (s.execute services).2.walk.status ≠ .awaiting ∨ _
    obtain ⟨_, heq⟩ | ⟨step, n, hhand, hstatus, hstate, ⟨hnone, _, heq⟩ | ⟨_, _, heq⟩⟩ := execute_cases services s
    · exact .inl (by rw [heq])
    · exact .inr (.inr ⟨step, n, hhand, hstatus, hstate, hnone, congrArg Prod.snd heq⟩)
    · exact .inr (.inl (by rw [heq]; nofun))
  | skip =>
    refine .inr ?_
    show s.skip.2 = s ∨ s.skip.2.walk.status ≠ .awaiting ∨ _
    obtain ⟨_, heq⟩ | ⟨_, _, _, _, _, heq⟩ := skip_cases s
    · exact .inl (by rw [heq])
    · exact .inr (.inl (by rw [heq]; nofun))
  | enter run => exact .inr (.inr (.inl (status_enter services s run)))
  | next => exact .inr (.inr (.inl (status_next s)))
  | previous => exact .inr (.inr (.inl (status_previous s)))
  | exit => exact .inr (.inr (.inl nofun))

/-! ## A walk that does not wait -/

theorem status_act (h : s.walk.status ≠ .awaiting) (hquiet : Quiet s action) :
    (s.act action).walk.status ≠ .awaiting := by
  cases action with
  | edit edit => exact h
  | move services m =>
    show (s.move services m).2.walk.status ≠ .awaiting
    obtain rfl | hsame | haway | ⟨_, _, _, hstatus, _⟩ := move_cases services s m
    · obtain heq | ⟨_, _, _, _, _, heq⟩ := hquiet.run_cases
      · exact heq.symm ▸ h
      · show (s.runCurrent services).2.walk.status ≠ .awaiting
        rw [heq]
        exact h
    · rw [hsame]
      exact h
    · exact haway
    · exact absurd hstatus h

theorem not_executes_of_status (h : s.walk.status ≠ .awaiting) {actions : List (Action σ)}
    (hquiet : Throughout Quiet s actions) (request : Request) :
    ¬(s.acts actions).Executes request := by
  induction actions generalizing s with
  | nil =>
    rintro ⟨_, _, _, hstatus, _⟩
    exact h hstatus
  | cons action actions ih => exact ih (status_act h hquiet.1) hquiet.2

/-! ## A graph in which nothing waits -/

def Rested (s : Simulation σ) : Prop := ∀ n ∈ s.job.graph.nodes, n.state ≠ .pendingSideEffect

theorem Rested.act (h : s.Rested) (hquiet : Quiet s action) : (s.act action).Rested := by
  have hreset : ∀ n ∈ s.job.graph.resetAll.nodes, n.state ≠ .pendingSideEffect := by
    intro n hn
    obtain ⟨_, -, rfl⟩ := List.mem_map.1 hn
    nofun
  cases action with
  | edit edit =>
    intro n hn
    obtain hidle | ⟨m, hm, hsame⟩ := s.job.graph.state_of_mem_after edit hn
    · rw [hidle]
      nofun
    · exact hsame ▸ h m hm
  | move services m =>
    cases m with
    | enter run =>
      show (s.enter services run).2.Rested
      cases hplan : services.plan s.job.graph.source with
      | ok plan => rw [enter_ok hplan]; exact hreset
      | error error => rw [enter_error hplan]; exact hreset
    | run =>
      show (s.runCurrent services).2.Rested
      obtain heq | ⟨step, n, response, hhand, _, heq⟩ := hquiet.run_cases
      · rw [heq]
        exact h
      · have hgraph : (s.runCurrent services).2.job.graph =
            s.job.graph.put ((s.begun step n).answered response) := by
          rw [heq]
          exact TaskGraph.put_put rfl
        intro k hk
        rw [hgraph] at hk
        rcases TaskGraph.mem_put hk with rfl | hk
        · exact Node.answered_state_ne _ _
        · exact h k hk
    | execute =>
      show (s.execute services).2.Rested
      obtain ⟨_, heq⟩ | ⟨_, n, hhand, _, hstate, _⟩ := execute_cases services s
      · rw [heq]
        exact h
      · exact absurd hstate (h n (TaskGraph.mem_of_node? hhand.node?))
    | skip =>
      show s.skip.2.Rested
      obtain ⟨_, heq⟩ | ⟨_, n, hhand, _, hstate, _⟩ := skip_cases s
      · rw [heq]
        exact h
      · exact absurd hstate (h n (TaskGraph.mem_of_node? hhand.node?))
    | next => exact h
    | previous => exact h
    | exit => exact hreset

theorem Rested.not_executes (h : s.Rested) {actions : List (Action σ)}
    (hquiet : Throughout Quiet s actions) (request : Request) :
    ¬(s.acts actions).Executes request := by
  induction actions generalizing s with
  | nil =>
    rintro ⟨_, n, hhand, _, hstate, _⟩
    exact h n (TaskGraph.mem_of_node? hhand.node?) hstate
  | cons action actions ih => exact ih (h.act hquiet.1) hquiet.2

theorem rested_resetAll (s : Simulation σ) : (s.act (.edit .resetAll)).Rested := by
  intro n hn
  obtain ⟨_, -, rfl⟩ := List.mem_map.1 hn
  nofun

/-! ## A walk at a task that was not asked for -/

/-- It is the turn of a name, and no task of the name has been asked for. -/
structure Unasked (step : Instruction) (s : Simulation σ) : Prop where
  turn : s.walk.current? = some step
  task : ∀ n, s.job.graph.named? step.id = some n → n.lastRequest = none

theorem Unasked.edit (h : s.Unasked step) (hsound : s.job.graph.Sound) {edit : Edit} (hreset : edit ≠ .resetAll)
    (hrename : ∀ id new policy, edit ≠ .rename id new policy) : (s.act (.edit edit)).Unasked step := by
  refine ⟨h.turn, fun n hn => ?_⟩
  have hname : n.name = step.id := (hsound.after edit).wellFormed.named _ _ hn
  have hmem : n ∈ (s.job.graph.after edit).nodes := TaskGraph.mem_of_node? (TaskGraph.node?_of_named? hn)
  obtain ⟨-, hnone⟩ | ⟨m, hm, -, hsame, hrequest⟩ := s.job.graph.mem_after hreset hrename hmem
  · exact hnone
  · have hnamed : s.job.graph.named? step.id = some m := by
      rw [← hname, ← hsame]
      exact hsound.wellFormed.named?_of_mem hm
    exact hrequest.symm.trans (h.task m hnamed)

theorem Unasked.put (h : s.Unasked step) {kept : Node} (hnode : s.job.graph.node? kept.id = some n)
    (hnone : kept.lastRequest = none) : (s.put kept).Unasked step := by
  refine ⟨h.turn, fun k hk => ?_⟩
  rw [graph_put, TaskGraph.named?_put (m := kept) hnode] at hk
  split at hk
  · exact Option.some.inj hk ▸ hnone
  · exact h.task k hk

theorem Unasked.act (h : s.Unasked step) (hsound : s.job.graph.Sound) (hquiet : Quiet s action) :
    (s.act action).walk.status ≠ .awaiting ∨ (s.act action).Rested ∨
      (s.act action).Unasked step ∨ Settles s action := by
  cases action with
  | edit edit =>
    by_cases hreset : edit = .resetAll
    · exact .inr (.inl (hreset ▸ rested_resetAll s))
    · have hrename : ∀ id new policy, edit ≠ .rename id new policy := fun id new policy heq =>
        hquiet.1 id new policy (congrArg Action.edit heq)
      exact .inr (.inr (.inl (h.edit hsound hreset hrename)))
  | move services m =>
    have hact : s.act (.move services m) = (s.move services m).2 := rfl
    rw [hact]
    obtain rfl | hsame | haway | ⟨_, n, hhand, _, _, hnone, heq⟩ := move_cases services s m
    · obtain hsame | ⟨_, _, _, _, _, heq⟩ := hquiet.run_cases
      · exact .inr (.inr (.inl (hsame.symm ▸ h)))
      · exact .inr (.inr (.inr ⟨services, rfl, _, by rw [heq]⟩))
    · exact .inr (.inr (.inl (hsame.symm ▸ h)))
    · exact .inl haway
    · exact .inr (.inr (.inl (heq.symm ▸ h.put hhand.node? hnone)))

theorem Unasked.settles (h : s.Unasked step) (hsound : s.job.graph.Sound) {actions : List (Action σ)}
    (hquiet : Throughout Quiet s actions)
    (hexecutes : (s.acts actions).Executes request) :
    Sometime Settles s actions := by
  induction actions generalizing s with
  | nil =>
    obtain ⟨step', n, hhand, _, _, hrequest⟩ := hexecutes
    obtain rfl : step = step' := Option.some.inj (h.turn.symm.trans hhand.turn)
    rw [h.task n hhand.task] at hrequest
    cases hrequest
  | cons action actions ih =>
    obtain hstatus | hrested | hunasked | hsettles := h.act hsound hquiet.1
    · exact absurd hexecutes (not_executes_of_status hstatus hquiet.2 request)
    · exact absurd hexecutes (hrested.not_executes hquiet.2 request)
    · exact .inr (ih hunasked (sound_act hsound action) hquiet.2 hexecutes)
    · exact .inl hsettles

/-! ## A walk at the task that was asked for -/

/-- It is the turn of a task that was asked for. -/
structure Waits (id : String) (step : Instruction) (request : Request) (s : Simulation σ) : Prop where
  turn : s.walk.current? = some step
  task : ∃ n, s.job.graph.named? step.id = some n ∧ n.id = id ∧ n.lastRequest = some request

theorem Waits.edit (h : s.Waits id step request) (hsound : s.job.graph.Sound) {edit : Edit}
    (hreset : edit ≠ .resetAll) (hrename : ∀ id new policy, edit ≠ .rename id new policy) :
    (s.act (.edit edit)).Waits id step request ∨
      (s.act (.edit edit)).Unasked step ∧ Takes id s (.edit edit) := by
  obtain ⟨n, htask, rfl, hrequest⟩ := h.task
  have hnode := TaskGraph.node?_of_named? htask
  have hmem : n ∈ s.job.graph.nodes := TaskGraph.mem_of_node? hnode
  have hname : n.name = step.id := hsound.wellFormed.named _ _ htask
  have hwell := (hsound.after edit).wellFormed
  cases hfound : (s.job.graph.after edit).node? n.id with
  | some k =>
    have hk := TaskGraph.mem_of_node? hfound
    have hid : k.id = n.id := TaskGraph.id_of_node? hfound
    obtain ⟨hnew, -⟩ | ⟨m, hm, hmid, hkname, hkrequest⟩ := s.job.graph.mem_after hreset hrename hk
    · exact absurd (hid.symm.trans hnew) (hsound.ne_newId hmem)
    · obtain rfl : m = n := TaskGraph.eq_of_id_eq hsound.wellFormed.nodeIds hm hmem (hmid.trans hid)
      refine .inl ⟨h.turn, k, ?_, hid, hkrequest.symm.trans hrequest⟩
      rw [← hname, hkname]
      exact hwell.named?_of_mem hk
  | none =>
    refine .inr ⟨⟨h.turn, fun k hk => ?_⟩, Option.isSome_iff_exists.2 ⟨n, hnode⟩, Option.isSome_eq_false_iff.2 ?_⟩
    · have hkmem : k ∈ (s.job.graph.after edit).nodes := TaskGraph.mem_of_node? (TaskGraph.node?_of_named? hk)
      obtain ⟨-, hnone⟩ | ⟨m, hm, hmid, hmname, -⟩ := s.job.graph.mem_after hreset hrename hkmem
      · exact hnone
      · have hsame : m.name = n.name := hmname.trans ((hwell.named _ _ hk).trans hname.symm)
        obtain rfl := TaskGraph.eq_of_name_eq hsound.wellFormed.names hm hmem hsame
        exact absurd hmid.symm (TaskGraph.ne_of_node?_eq_none hfound k hkmem)
    · exact Option.isNone_iff_eq_none.2 hfound

theorem Waits.act (h : s.Waits id step request) (hsound : s.job.graph.Sound) (hstatus : s.walk.status = .awaiting)
    (hquiet : Quiet s action) :
    (s.act action).walk.status ≠ .awaiting ∨ (s.act action).Rested ∨
      (s.act action).Waits id step request ∨
      (s.act action).Unasked step ∧ Takes id s action := by
  obtain ⟨n, htask, hid, hrequest⟩ := h.task
  have hhand : s.AtHand step n := ⟨refusal?_of_awaiting hstatus, h.turn, htask⟩
  cases action with
  | edit edit =>
    by_cases hreset : edit = .resetAll
    · exact .inr (.inl (hreset ▸ rested_resetAll s))
    · have hrename : ∀ id new policy, edit ≠ .rename id new policy := fun id new policy heq =>
        hquiet.1 id new policy (congrArg Action.edit heq)
      exact .inr (.inr (h.edit hsound hreset hrename))
  | move services m =>
    have hact : s.act (.move services m) = (s.move services m).2 := rfl
    rw [hact]
    obtain rfl | hsame | haway | ⟨step', k, hhand', _, _, hnone, _⟩ := move_cases services s m
    · exact absurd (by rw [runCurrent_pending hhand hstatus hrequest]) (hquiet.2 services rfl request)
    · exact .inr (.inr (.inl (hsame.symm ▸ h)))
    · exact .inl haway
    · obtain rfl : step = step' := Option.some.inj (h.turn.symm.trans hhand'.turn)
      obtain rfl : n = k := Option.some.inj (htask.symm.trans hhand'.task)
      exact absurd (hrequest.symm.trans hnone) nofun

/-- What is executed is what was asked for last, unless its task was taken away and the
walk went on to another. -/
theorem Waits.executes (h : s.Waits id step request) (hsound : s.job.graph.Sound) {actions : List (Action σ)}
    (hquiet : Throughout Quiet s actions) {executed : Request}
    (hexecutes : (s.acts actions).Executes executed) :
    executed = request ∨
      Sometime (Takes id) s actions ∧ Sometime Settles s actions := by
  induction actions generalizing s with
  | nil =>
    obtain ⟨step', k, hhand, _, _, hexecuted⟩ := hexecutes
    obtain ⟨n, htask, -, hrequest⟩ := h.task
    obtain rfl : step = step' := Option.some.inj (h.turn.symm.trans hhand.turn)
    obtain rfl : n = k := Option.some.inj (htask.symm.trans hhand.task)
    exact .inl (Option.some.inj (hexecuted.symm.trans hrequest))
  | cons action actions ih =>
    by_cases hstatus : s.walk.status = .awaiting
    · obtain haway | hrested | hwaits | ⟨hunasked, htakes⟩ := h.act hsound hstatus hquiet.1
      · exact absurd hexecutes (not_executes_of_status haway hquiet.2 executed)
      · exact absurd hexecutes (hrested.not_executes hquiet.2 executed)
      · exact (ih hwaits (sound_act hsound action) hquiet.2 hexecutes).imp_right fun ⟨htakes, hsettles⟩ =>
          ⟨.inr htakes, .inr hsettles⟩
      · have hsettles := hunasked.settles (sound_act hsound action) hquiet.2 hexecutes
        exact .inr ⟨.inl htakes, .inr hsettles⟩
    · exact absurd hexecutes (not_executes_of_status (status_act hstatus hquiet.1) hquiet.2 executed)

theorem waits_of_awaiting (hhand : s.AtHand step n)
    (hasked : (s.runCurrent services).1 = .ok (.awaiting request)) :
    (s.runCurrent services).2.Waits n.id step request := by
  obtain ⟨kept, _, hrequest, heq⟩ | ⟨_, heq⟩ := hhand.run_cases services
  · rw [heq] at hasked ⊢
    cases hasked
    exact ⟨hhand.turn, n, hhand.task, rfl, hrequest⟩
  · rw [heq, runTask_eq hhand.node?] at hasked ⊢
    by_cases heffect : n.kind.hasSideEffect = true
    · rw [if_pos heffect] at hasked ⊢
      cases hasked
      exact ⟨hhand.turn, s.begun step n, Steady.named?_put hhand rfl, rfl, rfl⟩
    · rw [if_neg heffect] at hasked
      cases hasked

end

variable {σ : Type}

theorem executes_of_calls {services : Services σ} {s : Simulation (σ × List Request)} {request : Request}
    (hcalls : (s.execute services.logged).2.calls = s.calls ++ [request]) : s.Executes request := by
  have hsame : ∀ {calls : List Request}, calls = s.calls → calls ≠ s.calls ++ [request] := by
    rintro _ rfl hgrown
    have hlength := congrArg List.length hgrown
    rw [List.length_append, List.length_singleton] at hlength
    omega
  obtain ⟨_, heq⟩ | ⟨step, n, hhand, hstatus, hstate, ⟨_, _, heq⟩ | ⟨kept, hrequest, heq⟩⟩ :=
    execute_cases services.logged s
  · exact absurd hcalls (hsame (by rw [heq]))
  · exact absurd hcalls (hsame (by rw [heq]; rfl))
  · rw [heq] at hcalls
    have hkept : s.calls ++ [kept] = s.calls ++ [request] := hcalls
    cases List.append_cancel_left hkept
    exact ⟨step, n, hhand, hstatus, hstate, hrequest⟩

theorem sound_acts {s : Simulation σ} (h : s.job.graph.Sound) (actions : List (Action σ)) :
    (s.acts actions).job.graph.Sound := by
  induction actions generalizing s with
  | nil => exact h
  | cons action actions ih => exact ih (sound_act h action)

/-- However a caller moves and edits, and whatever the services are at each move, a side
effect is evaluated by being executed only, and not more often than it was asked for.  What
is executed is what was asked for last, unless its task was taken away since, and the run of
another settled. -/
theorem effects_asked {job : Job} (hg : job.graph.Built) (state : σ) (actions : List (Action σ)) :
    let s := (⟨Walk.start, job, (state, []), []⟩ : Simulation (σ × List Request)).acts
      (actions.map Action.logged)
    (∀ (services : Services σ) m, m ≠ .execute → ∃ calls, (s.move services.logged m).2.calls = s.calls ++ calls ∧
      ∀ r ∈ calls, r.kind.hasSideEffect = false) ∧
    s.effects ≤ s.asked ∧
    ∀ (services : Services σ) step n request, s.AtHand step n →
      (s.runCurrent services.logged).1 = .ok (.awaiting request) →
      ∀ between : List (Action σ),
        Throughout Quiet (s.runCurrent services.logged).2 (between.map Action.logged) →
        let t := (s.runCurrent services.logged).2.acts (between.map Action.logged)
        ∀ (services' : Services σ) executed, (t.execute services'.logged).2.calls = t.calls ++ [executed] →
          executed = request ∨
            Sometime (Takes n.id) (s.runCurrent services.logged).2 (between.map Action.logged) ∧
              Sometime Settles (s.runCurrent services.logged).2 (between.map Action.logged) := by
  intro s
  have hstart : (⟨Walk.start, job, (state, []), []⟩ : Simulation (σ × List Request)).Covered :=
    ⟨Nat.le_refl 0, fun hactive => (by cases hactive)⟩
  refine ⟨fun services m hm => calls_move services s hm, (hstart.acts actions).effects_le, ?_⟩
  intro services step n request hhand hasked between hquiet t services' executed hexecuted
  have hsound : s.job.graph.Sound := sound_acts hg.sound _
  have hsound' : (s.runCurrent services.logged).2.job.graph.Sound :=
    hsound.of_form (OnCourse.run services.logged s).form
  exact (waits_of_awaiting hhand hasked).executes hsound' hquiet (executes_of_calls hexecuted)

/-- A plan that is given whatever the text. -/
def fetchServices : Services Unit where
  plan := fun _ => .ok ⟨[⟨"fetch", []⟩, ⟨"parse", [⟨"fetch", true⟩]⟩]⟩
  evaluate := fun _ state => (.ok (.ofValue .null), state)

/-- Those outside are down. -/
def downServices : Services Unit where
  plan := fun _ => .error (.collaborator (.reported "down"))
  evaluate := fun _ state => (.error (.collaborator (.reported "down")), state)

theorem effects_asked_fetchJob :
    fetchJob.graph.Built ∧
      let s := (⟨Walk.start, fetchJob, ((), []), []⟩ : Simulation (Unit × List Request)).acts
        ([.move fetchServices (.enter "exec-1"), .move downServices (.enter "exec-2"),
          .move fetchServices (.enter "exec-3")].map Action.logged)
      ∃ n request, s.AtHand ⟨"fetch", []⟩ n ∧
        (s.runCurrent fetchServices.logged).1 = .ok (.awaiting request) ∧
        let t := (s.runCurrent fetchServices.logged).2.acts
          ([.edit (.setFields "node_1" [("url", "http://localhost/")]),
            .edit (.replaceKind "node_1" .sum)].map Action.logged)
        ∀ executed, (t.execute downServices.logged).2.calls = t.calls ++ [executed] → executed = request := by
  have hbuilt : fetchJob.graph.Built := ⟨_, rfl⟩
  obtain ⟨-, -, hlatest⟩ := effects_asked hbuilt () [.move fetchServices (.enter "exec-1"),
    .move downServices (.enter "exec-2"), .move fetchServices (.enter "exec-3")]
  refine ⟨hbuilt, _, _, ⟨rfl, rfl, rfl⟩, rfl, fun executed hexecuted => ?_⟩
  have hquiet : ∀ s : Simulation (Unit × List Request), Throughout Quiet s
      ([.edit (.setFields "node_1" [("url", "http://localhost/")]),
        .edit (.replaceKind "node_1" .sum)].map Action.logged) :=
    fun _ => ⟨⟨nofun, nofun⟩, ⟨nofun, nofun⟩, trivial⟩
  obtain hsame | ⟨-, hsettles⟩ := hlatest fetchServices _ _ _ ⟨rfl, rfl, rfl⟩ rfl _ (hquiet _) _ executed hexecuted
  · exact hsame
  · rcases hsettles with ⟨_, hrun, -⟩ | ⟨_, hrun, -⟩ | hrun <;> cases hrun

end Simulation
end JobPipeline
