import JobPipeline.Proofs.Simulation.Consistency

/-
Side effects and the questions before them.

A caller moves through a run and edits the graph as they like, and finds other services at
each move.  A record of what the evaluator is asked shows that a side effect is evaluated by being executed only, and
never more often than it was asked for.
-/
namespace JobPipeline

/-- The same services, with a record of what the evaluator is asked. -/
def Services.logged {σ : Type} (services : Services σ) : Services (σ × List Request) where
  plan := services.plan
  evaluate := fun request state =>
    ((services.evaluate request state.1).1, (services.evaluate request state.1).2, state.2 ++ [request])

theorem Node.answered_state_ne (n : Node) (response : Response) :
    (n.answered response).state ≠ .pendingSideEffect := by
  rw [answered_state]
  split <;> nofun

/-- What a caller does. -/
inductive Action (σ : Type) where
  /-- A move, made with the services as they are then. -/
  | move (services : Services σ) (m : Move)
  | edit (edit : Edit)

/-- The same action, with a record of what the evaluator is asked. -/
def Action.logged {σ : Type} : Action σ → Action (σ × List Request)
  | .move services m => .move services.logged m
  | .edit change => .edit change

namespace TaskGraph

/-- The tasks whose side effect waits. -/
def pending (g : TaskGraph) : Nat := g.nodes.countP fun n => n.state = .pendingSideEffect

theorem pending_put {g : TaskGraph} {m n : Node} (h : g.node? m.id = some n) :
    (g.put m).pending + (if n.state = .pendingSideEffect then 1 else 0) =
      g.pending + if m.state = .pendingSideEffect then 1 else 0 := by
  have hcount := countP_updateFirst (b := m) (fun k => decide (k.state = .pendingSideEffect)) h
  simp only [decide_eq_true_eq] at hcount
  exact hcount

theorem pending_put_le {g : TaskGraph} {m n : Node} (h : g.node? m.id = some n)
    (hm : m.state ≠ .pendingSideEffect) : (g.put m).pending ≤ g.pending := by
  have hcount := pending_put h
  rw [if_neg hm] at hcount
  omega

theorem pending_eq (g : TaskGraph) :
    g.pending = (g.stages.map Node.Stage.unnamed).countP fun t => t.state = .pendingSideEffect := by
  rw [stages, List.map_map, List.countP_map]
  rfl

theorem pending_resetAll (g : TaskGraph) : g.resetAll.pending = 0 := by
  rw [pending, List.countP_eq_zero]
  intro n hn
  obtain ⟨_, -, rfl⟩ := List.mem_map.1 hn
  nofun

/-- No edit makes a task wait. -/
theorem pending_after (g : TaskGraph) (edit : Edit) : (g.after edit).pending ≤ g.pending := by
  by_cases hreset : edit = .resetAll
  · subst hreset
    exact (pending_resetAll g).le.trans (Nat.zero_le _)
  · rw [pending_eq, pending_eq]
    have hcount : ((g.after edit).stages.map Node.Stage.unnamed).countP (fun t => t.state = .pendingSideEffect) ≤ _ :=
      (unnamed_after g hreset).countP_le
    rw [List.countP_append] at hcount
    exact hcount

end TaskGraph

namespace Simulation

section

variable {σ : Type} {services : Services σ} {s : Simulation σ} {step : Instruction} {n : Node}

/-- What an action leaves, whether it succeeds or fails. -/
def act (s : Simulation σ) : Action σ → Simulation σ
  | .move services m => (s.move services m).2
  | .edit edit => { s with job := { s.job with graph := s.job.graph.after edit } }

def acts (s : Simulation σ) (actions : List (Action σ)) : Simulation σ := actions.foldl act s

/-- How often it was asked for a side effect. -/
def asked (s : Simulation σ) : Nat :=
  s.events.countP fun e => match e.report with
    | .sideEffectPending _ => true
    | _ => false

theorem asked_settled (n : Node) (response : Response) (s : Simulation σ) :
    (s.settled n response).asked = s.asked := by
  rw [asked, settled, record]
  cases (n.outcome response).error <;> exact (List.countP_append ..).trans (Nat.add_zero _)

theorem asked_called (request : Request) (s : Simulation σ) : (s.called services request).asked = s.asked :=
  (List.countP_append ..).trans (Nat.add_zero _)

theorem asked_prompted (step : Instruction) (n : Node) (s : Simulation σ) :
    (s.prompted step n).asked = s.asked + 1 := List.countP_append ..

theorem asked_exit (s : Simulation σ) : s.exit.asked = s.asked := (List.countP_append ..).trans (Nat.add_zero _)

theorem asked_entered (plan : Plan) (s : Simulation σ) (run : String) : (s.entered plan run).asked = s.asked :=
  (List.countP_append ..).trans (Nat.add_zero _)

theorem asked_barred (error : JobError) (s : Simulation σ) (run : String) : (s.barred error run).asked = s.asked :=
  (List.countP_append ..).trans (Nat.add_zero _)

end

variable {σ : Type} {services : Services σ} {s : Simulation (σ × List Request)} {step : Instruction} {n : Node}

/-- What the evaluator has been asked. -/
def calls (s : Simulation (σ × List Request)) : List Request := s.state.2

/-- How often a side effect was evaluated. -/
def effects (s : Simulation (σ × List Request)) : Nat := s.calls.countP fun r => r.kind.hasSideEffect

/-! ## Only by being executed -/

theorem calls_run (services : Services σ) (s : Simulation (σ × List Request)) :
    ∃ calls, (s.runCurrent services.logged).2.calls = s.calls ++ calls ∧
      ∀ r ∈ calls, r.kind.hasSideEffect = false := by
  have hnone : ∃ calls, s.calls = s.calls ++ calls ∧ ∀ r ∈ calls, r.kind.hasSideEffect = false :=
    ⟨[], (List.append_nil _).symm, nofun⟩
  obtain h | ⟨step, n, hhand, _, h⟩ := runCurrent_left services.logged s
  · rw [h]
    exact hnone
  · rw [h, runTask_eq hhand.node?]
    by_cases heffect : n.kind.hasSideEffect = true
    · rw [if_pos heffect]
      exact hnone
    · rw [if_neg heffect]
      refine ⟨[s.request step n], rfl, fun r hr => ?_⟩
      rw [List.mem_singleton.1 hr]
      exact Bool.eq_false_iff.2 heffect

theorem calls_skip (s : Simulation (σ × List Request)) : s.skip.2.calls = s.calls := by
  rcases skip_cases s with ⟨_, h⟩ | ⟨_, _, _, _, _, h⟩
  · rw [h]
  · rw [h]
    rfl

theorem calls_enter (services : Services σ) (s : Simulation (σ × List Request)) (run : String) :
    (s.enter services.logged run).2.calls = s.calls := by
  cases hplan : services.logged.plan s.job.graph.source with
  | ok plan => rw [enter_ok hplan]; rfl
  | error error => rw [enter_error hplan]; rfl

theorem calls_move (services : Services σ) (s : Simulation (σ × List Request)) {m : Move} (hm : m ≠ .execute) :
    ∃ calls, (s.move services.logged m).2.calls = s.calls ++ calls ∧
      ∀ r ∈ calls, r.kind.hasSideEffect = false := by
  have hsame : ∀ {s' : Simulation (σ × List Request)}, s'.calls = s.calls →
      ∃ calls, s'.calls = s.calls ++ calls ∧ ∀ r ∈ calls, r.kind.hasSideEffect = false :=
    fun heq => ⟨[], heq.trans (List.append_nil _).symm, nofun⟩
  cases m with
  | enter run => exact hsame (calls_enter services s run)
  | run => exact calls_run services s
  | execute => exact absurd rfl hm
  | skip => exact hsame (calls_skip s)
  | next => exact hsame rfl
  | previous => exact hsame rfl
  | exit => exact hsame rfl

/-! ## Never more often than asked for -/

/-- A question was asked for every side effect that was evaluated, and for every one that
waits while a run goes on. -/
structure Covered (s : Simulation (σ × List Request)) : Prop where
  effects_le : s.effects ≤ s.asked
  pending_le : s.walk.refusal? = none → s.effects + s.job.graph.pending ≤ s.asked

theorem Covered.of_eq {s s' : Simulation (σ × List Request)} (h : s.Covered) (heffects : s'.effects = s.effects)
    (hasked : s'.asked = s.asked)
    (hpending : s'.walk.refusal? = none → s'.job.graph.pending = 0 ∨
      s.walk.refusal? = none ∧ s'.job.graph.pending ≤ s.job.graph.pending) : s'.Covered := by
  have hle := h.effects_le
  refine ⟨by omega, fun hactive => ?_⟩
  rcases hpending hactive with hzero | ⟨hbefore, hless⟩
  · omega
  · have := h.pending_le hbefore
    omega

theorem effects_settled (n : Node) (response : Response) (s : Simulation (σ × List Request)) :
    (s.settled n response).effects = s.effects := rfl

theorem effects_called (services : Services σ) (request : Request) (s : Simulation (σ × List Request)) :
    (s.called services.logged request).effects = s.effects + if request.kind.hasSideEffect then 1 else 0 := by
  show (s.calls ++ [request]).countP _ = _
  rw [List.countP_append, List.countP_singleton]
  rfl

theorem Covered.run (h : s.Covered) (services : Services σ) : (s.runCurrent services.logged).2.Covered := by
  obtain heq | ⟨step, n, hhand, _, heq⟩ := runCurrent_left services.logged s
  · rw [heq]
    exact h
  · have hnode := hhand.node?
    have hbefore := h.pending_le hhand.active
    rw [heq, runTask_eq hnode]
    by_cases heffect : n.kind.hasSideEffect = true
    · rw [if_pos heffect]
      have hasked := asked_prompted step n s
      have heffects : (s.prompted step n).effects = s.effects := rfl
      have hpending := TaskGraph.pending_put (m := s.begun step n) hnode
      have hgraph : (s.prompted step n).job.graph = s.job.graph.put (s.begun step n) := rfl
      refine ⟨by rw [heffects, hasked]; omega, fun _ => ?_⟩
      dsimp only
      rw [heffects, hasked, hgraph]
      split at hpending <;> split at hpending <;> omega
    · rw [if_neg heffect]
      dsimp only
      generalize services.logged.respond (s.request step n) s.state = response
      have hgraph : (((s.put (s.begun step n)).called services.logged (s.request step n)).settled (s.begun step n)
          response).job.graph = s.job.graph.put ((s.begun step n).answered response) := TaskGraph.put_put rfl
      have hkind : (s.request step n).kind.hasSideEffect = false := Bool.eq_false_iff.2 heffect
      refine h.of_eq ?_ ?_ fun _ => .inr ⟨hhand.active, hgraph ▸ TaskGraph.pending_put_le hnode ?_⟩
      · rw [effects_settled, effects_called, hkind]
        rfl
      · rw [asked_settled, asked_called]
        rfl
      · exact Node.answered_state_ne _ _

theorem Covered.execute (h : s.Covered) (services : Services σ) : (s.execute services.logged).2.Covered := by
  rcases execute_cases services.logged s with ⟨_, heq⟩ | ⟨step, n, hhand, _, hstate, hrest⟩
  · rw [heq]
    exact h
  · have hnode := hhand.node?
    have hbefore := h.pending_le hhand.active
    rcases hrest with ⟨_, _, heq⟩ | ⟨request, _, heq⟩
    · rw [heq]
      exact h.of_eq rfl rfl fun _ => .inr ⟨hhand.active, TaskGraph.pending_put_le (m := n.executing) hnode nofun⟩
    · rw [heq]
      dsimp only
      generalize services.logged.respond request s.state = response
      have hfinal := n.executing.answered_state_ne response
      have hpending := TaskGraph.pending_put (m := n.executing.answered response) hnode
      rw [if_pos hstate, if_neg hfinal] at hpending
      have hasked : (((((s.put n.executing).setStatus .ready).called services.logged request).settled n.executing
          response)).asked = s.asked := by
        rw [asked_settled, asked_called]
        rfl
      have heffects : (((((s.put n.executing).setStatus .ready).called services.logged request).settled n.executing
          response)).effects ≤ s.effects + 1 := by
        rw [effects_settled, effects_called]
        have hsame : ((s.put n.executing).setStatus .ready).effects = s.effects := rfl
        rw [hsame]
        split <;> omega
      have hgraph : (((((s.put n.executing).setStatus .ready).called services.logged request).settled n.executing
          response)).job.graph = s.job.graph.put (n.executing.answered response) := TaskGraph.put_put rfl
      refine ⟨by omega, fun _ => ?_⟩
      rw [hgraph, hasked]
      omega

theorem Covered.skip (h : s.Covered) : s.skip.2.Covered := by
  rcases skip_cases s with ⟨_, heq⟩ | ⟨step, n, hhand, _, _, heq⟩
  · rw [heq]
    exact h
  · rw [heq]
    refine h.of_eq rfl ?_ fun _ => .inr ⟨hhand.active, ?_⟩
    · rw [asked_settled]
      rfl
    · exact TaskGraph.pending_put_le (m := n.answered _) hhand.node? (n.answered_state_ne _)

theorem Covered.enter (h : s.Covered) (services : Services σ) (run : String) :
    (s.enter services.logged run).2.Covered := by
  cases hplan : services.logged.plan s.job.graph.source with
  | ok plan =>
    rw [enter_ok hplan]
    exact h.of_eq rfl (asked_entered plan s run) fun _ => .inl (TaskGraph.pending_resetAll _)
  | error error =>
    rw [enter_error hplan]
    exact h.of_eq rfl (asked_barred error s run) fun _ => .inl (TaskGraph.pending_resetAll _)

theorem Covered.move (h : s.Covered) (services : Services σ) (m : Move) : (s.move services.logged m).2.Covered := by
  cases m with
  | enter run => exact h.enter services run
  | run => exact h.run services
  | execute => exact h.execute services
  | skip => exact h.skip
  | next =>
    show s.next.2.Covered
    cases hrefusal : s.walk.refusal? with
    | some error => rw [next_refused hrefusal]; exact h
    | none => rw [next_eq hrefusal]; exact h.of_eq rfl rfl fun _ => .inr ⟨hrefusal, Nat.le_refl _⟩
  | previous =>
    show s.previous.2.Covered
    cases hrefusal : s.walk.refusal? with
    | some error => rw [previous_refused hrefusal]; exact h
    | none => rw [previous_eq hrefusal]; exact h.of_eq rfl rfl fun _ => .inr ⟨hrefusal, Nat.le_refl _⟩
  | exit => exact h.of_eq rfl (asked_exit s) fun _ => .inl (TaskGraph.pending_resetAll _)

theorem Covered.act (h : s.Covered) (action : Action σ) : (s.act action.logged).Covered := by
  cases action with
  | move services m => exact h.move services m
  | edit edit => exact h.of_eq rfl rfl fun hactive => .inr ⟨hactive, s.job.graph.pending_after edit⟩

theorem Covered.acts (h : s.Covered) (actions : List (Action σ)) :
    (s.acts (actions.map Action.logged)).Covered := by
  induction actions generalizing s with
  | nil => exact h
  | cons action actions ih => exact ih (h.act action)

end Simulation
end JobPipeline
