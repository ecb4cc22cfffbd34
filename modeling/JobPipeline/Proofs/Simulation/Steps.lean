import JobPipeline.Proofs.Graph.Course
import JobPipeline.Simulation.Basic

/-
What a step of a simulation can do.

A step answers with an error and leaves everything as it was, answers with what it
knows already, begins the task at hand, or settles it.  Each is an equation for the
answer and the simulation behind it; what a step keeps is read off these.
-/
namespace JobPipeline

/-! ## The task at hand -/

namespace Node

/-- A task that has been begun: it waits for the evaluator or for a decision. -/
def begun (n : Node) (inputs : List Json) (vars : Vars) : Node :=
  { n with
    state := if n.kind.hasSideEffect then .pendingSideEffect else .running
    runResult := if n.state = .idle then n.runResult else none
    lastRequest := some (n.request inputs vars) }

/-- The result that a task settles with. -/
def outcome (n : Node) (response : Response) : RunResult :=
  let vars :=
    if response.vars.isEmpty then (n.lastRequest.map Request.vars).getD Dict.empty else response.vars
  match response.error with
  | some message => ⟨n.name, .null, vars, some message⟩
  | none => ⟨n.name, response.value, vars.insert n.name response.value, none⟩

/-- A task that has been answered.  A real side effect leaves its value as the mock. -/
def answered (n : Node) (response : Response) : Node :=
  { n with
    mock := if n.state = .executingSideEffect ∧ response.error.isNone then Mock.ofValue response.value
      else n.mock
    state := if response.error.isSome then .failed else .success
    runResult := some (n.outcome response) }

theorem outcome_task (n : Node) (response : Response) : (n.outcome response).task = n.name := by
  rw [outcome]
  split <;> rfl

theorem isError_outcome (n : Node) (response : Response) :
    (n.outcome response).isError = response.error.isSome := by
  rw [outcome, RunResult.isError]
  split
  · next h => rw [h]
  · next h => rw [h]

theorem answered_state (n : Node) (response : Response) :
    (n.answered response).state = if (n.outcome response).isError then .failed else .success := by
  rw [isError_outcome]
  rfl

theorem settleWith_eq (n : Node) (response : Response) :
    n.settleWith response =
      ({ n with
          state := if response.error.isSome then .failed else .success
          runResult := some (n.outcome response) }, some (.settled (n.outcome response))) := by
  rw [settleWith, outcome]
  cases response.error <;> rfl

/-- Only a side effect that was executed leaves a mock. -/
theorem settleWith_of_ne {n : Node} (h : n.state ≠ .executingSideEffect) (response : Response) :
    n.settleWith response = (n.answered response, some (.settled (n.outcome response))) := by
  rw [settleWith_eq]
  simp only [answered, h, false_and, if_false]

theorem settle_eq {n : Node} (h : n.state = .running ∨ n.state = .executingSideEffect) (response : Response) :
    n.send (.settle response) = (n.answered response, some (.settled (n.outcome response))) := by
  have hsettle : n.send (.settle response) = n.advance (.settle response) := rfl
  rw [hsettle, advance.eq_def]
  rcases h with h | h
  · rw [h]
    exact settleWith_of_ne (by rw [h]; decide) response
  · rw [h]
    show Node.settleWith _ response = _
    rw [settleWith_eq, answered]
    simp only [h, true_and]
    rfl

theorem skip_eq {n : Node} (h : n.state = .pendingSideEffect) :
    n.send .skip = (n.answered n.skipResponse, some (.settled (n.outcome n.skipResponse))) := by
  have hskip : n.send .skip = n.advance .skip := rfl
  rw [hskip, advance.eq_def, h]
  exact settleWith_of_ne (by rw [h]; decide) n.skipResponse

/-- A task whose side effect is being executed. -/
def executing (n : Node) : Node := { n with state := .executingSideEffect }

theorem execute_eq {n : Node} (h : n.state = .pendingSideEffect) :
    n.send .execute = (n.executing, n.lastRequest.map .evaluate) := by
  have hexecute : n.send .execute = n.advance .execute := rfl
  rw [hexecute, advance.eq_def, h]
  rfl

theorem execute_eq_of_ne {n : Node} (h : n.state ≠ .pendingSideEffect) : n.send .execute = (n, none) := by
  have hexecute : n.send .execute = n.advance .execute := rfl
  rw [hexecute, advance.eq_def]
  cases hstate : n.state with
  | pendingSideEffect => exact absurd hstate h
  | _ => rfl

theorem skip_eq_of_ne {n : Node} (h : n.state ≠ .pendingSideEffect) : n.send .skip = (n, none) := by
  have hskip : n.send .skip = n.advance .skip := rfl
  rw [hskip, advance.eq_def]
  cases hstate : n.state with
  | pendingSideEffect => exact absurd hstate h
  | _ => rfl

/-- A task that has been brought to where it can be run. -/
def prepared (n : Node) : Node :=
  { n with
    state := .pendingRun
    runResult := if n.state = .idle then n.runResult else none
    lastRequest := if n.state = .idle then n.lastRequest else none }

theorem prepare_eq_of_idle {n : Node} (h : n.state = .idle) : n.send .prepare = (n.prepared, none) := by
  have hprepare : n.send .prepare = n.advance .prepare := rfl
  rw [hprepare, advance.eq_def, h, prepared, if_pos h, if_pos h]

theorem prepare_reset {n : Node} (h : n.state ≠ .idle) :
    (n.send .reset).1.send .prepare = (n.prepared, none) := by
  rw [prepared, if_neg h, if_neg h]
  rfl

theorem run_prepared (n : Node) (inputs : List Json) (vars : Vars) :
    n.prepared.send (.run inputs vars) =
      (n.begun inputs vars, some (if n.kind.hasSideEffect then .prompt (n.request inputs vars)
        else .evaluate (n.request inputs vars))) := by
  have hrun : n.prepared.send (.run inputs vars) = n.prepared.advance (.run inputs vars) := rfl
  rw [hrun, advance.eq_def]
  show (if n.kind.hasSideEffect = true then _ else _) = _
  rw [begun]
  split <;> rfl

end Node

namespace TaskGraph

variable {g : TaskGraph} {name : String} {n : Node}

theorem idOf?_of_named? (h : g.named? name = some n) : g.idOf? name = some n.id := by
  obtain ⟨id, hid, hnode⟩ := Option.bind_eq_some_iff.1 h
  rw [hid, id_of_node? hnode]

theorem node?_of_named? (h : g.named? name = some n) : g.node? n.id = some n := by
  obtain ⟨id, hid, hnode⟩ := Option.bind_eq_some_iff.1 h
  rw [id_of_node? hnode, hnode]

end TaskGraph

/-! ## Simulations -/

/-- What an evaluator has to say to a request; that it cannot be reached is a failure. -/
def Services.respond {σ : Type} (services : Services σ) (request : Request) (state : σ) : Response :=
  match (services.evaluate request state).1 with
  | .ok response => response
  | .error error => .ofError error.message

namespace Simulation

variable {σ : Type} {services : Services σ} {s : Simulation σ} {step : Instruction} {n : Node}

def put (s : Simulation σ) (n : Node) : Simulation σ :=
  { s with job := { s.job with graph := s.job.graph.put n } }

/-- The evaluator has been called. -/
def called (services : Services σ) (request : Request) (s : Simulation σ) : Simulation σ :=
  { s.emit (.taskStarted request.task) with state := (services.evaluate request s.state).2 }

/-- A task has been answered, and its result is kept. -/
def settled (n : Node) (response : Response) (s : Simulation σ) : Simulation σ :=
  (s.put (n.answered response)).record (n.outcome response)

@[simp] theorem walk_put (s : Simulation σ) (n : Node) : (s.put n).walk = s.walk := rfl

@[simp] theorem graph_put (s : Simulation σ) (n : Node) :
    (s.put n).job.graph = s.job.graph.put n := rfl

@[simp] theorem walk_called (request : Request) (s : Simulation σ) :
    (s.called services request).walk = s.walk := rfl

@[simp] theorem walk_settled (n : Node) (response : Response) (s : Simulation σ) :
    (s.settled n response).walk = s.walk.record (n.outcome response) := rfl

theorem send_eq {id : String} {event : NodeEvent} {m : Node} {effect : Option NodeEffect}
    (h : s.job.graph.node? id = some n) (hsend : n.send event = (m, effect)) :
    s.send id event = (.ok effect, s.put m) := by
  rw [send, TaskGraph.send_eq h, hsend]
  rfl

theorem send_missing {id : String} (h : s.job.graph.node? id = none) (event : NodeEvent) :
    s.send id event = (.error (.unknownNode id), s) := by
  rw [send, TaskGraph.send_eq_of_none h]

theorem put_put (s : Simulation σ) {m : Node} (h : n.id = m.id) : (s.put m).put n = s.put n := by
  show { s with job := { s.job with graph := (s.job.graph.put m).put n } } = s.put n
  rw [TaskGraph.put_put h]
  rfl

theorem put_self (h : s.job.graph.node? n.id = some n) : s.put n = s := by
  rw [put, TaskGraph.put_self h]

theorem node?_put {m : Node} (h : s.job.graph.node? n.id = some n) (hid : m.id = n.id) :
    (s.put m).job.graph.node? n.id = some m := by
  rw [← hid] at h ⊢
  exact TaskGraph.node?_put_self h

theorem node?_put_self {m : Node} (h : s.job.graph.node? m.id = some n) :
    (s.put m).job.graph.node? m.id = some m := TaskGraph.node?_put_self h

/-- What an evaluation comes to, by the answer of its task. -/
def concluded (request : Request) : Stepped σ (Option NodeEffect) → Stepped σ StepOutcome
  | (.error error, s) => (.error error, s)
  | (.ok (some (.settled result)), s) => (.ok (.settled result), s.record result)
  | (.ok _, s) => (.error (.walk (.notSettled request.task)), s)

theorem evaluate_eq (h : s.job.graph.node? n.id = some n)
    (hstate : n.state = .running ∨ n.state = .executingSideEffect) (request : Request) :
    evaluate services n.id request s =
      let response := services.respond request s.state
      (.ok (.settled (n.outcome response)), (s.called services request).settled n response) := by
  have hsend := send_eq (s := s.called services request) h
    (Node.settle_eq hstate (services.respond request s.state))
  show concluded request ((s.called services request).send n.id (.settle (services.respond request s.state))) = _
  rw [hsend]
  rfl

/-! ## Running the task at hand -/

/-- A step of the plan can be made, and it is the turn of a task of the graph. -/
structure AtHand (s : Simulation σ) (step : Instruction) (n : Node) : Prop where
  active : s.walk.refusal? = none
  turn : s.walk.current? = some step
  task : s.job.graph.named? step.id = some n

theorem AtHand.node? (h : s.AtHand step n) : s.job.graph.node? n.id = some n :=
  TaskGraph.node?_of_named? h.task

theorem AtHand.taskOf (h : s.AtHand step n) : s.taskOf step = .ok n.id := by
  rw [Simulation.taskOf, TaskGraph.idOf?_of_named? h.task]

theorem prepare_eq (h : s.job.graph.node? n.id = some n) :
    s.prepare n.id = (.ok none, s.put n.prepared) := by
  rw [prepare, h, Option.any_some]
  by_cases hidle : n.state = .idle
  · rw [decide_eq_true hidle, if_pos rfl]
    exact send_eq h (Node.prepare_eq_of_idle hidle)
  · have hreset : (n.send .reset).1.id = n.id := Node.send_id n .reset
    rw [decide_eq_false hidle, if_neg Bool.false_ne_true, send_eq h rfl]
    show (s.put (n.send .reset).1).send n.id .prepare = _
    rw [send_eq (node?_put h hreset) (Node.prepare_reset hidle), put_put s (n := n.prepared) hreset.symm]

/-- The request that the task at hand would be asked now. -/
def request (s : Simulation σ) (step : Instruction) (n : Node) : Request :=
  n.request (s.walk.inputs step) (s.walk.vars s.job.config)

/-- The task at hand as it would be begun now. -/
def begun (s : Simulation σ) (step : Instruction) (n : Node) : Node :=
  n.begun (s.walk.inputs step) (s.walk.vars s.job.config)

/-- A task with a side effect is begun, and a decision is asked for. -/
def prompted (s : Simulation σ) (step : Instruction) (n : Node) : Simulation σ :=
  ((s.put (s.begun step n)).setStatus .awaiting).emit (.sideEffectPending step.id)

theorem runTask_eq (h : s.job.graph.node? n.id = some n) (step : Instruction) :
    runTask services step n.id s =
      if n.kind.hasSideEffect then (.ok (.awaiting (s.request step n)), s.prompted step n)
      else
        let response := services.respond (s.request step n) s.state
        (.ok (.settled ((s.begun step n).outcome response)),
          ((s.put (s.begun step n)).called services (s.request step n)).settled (s.begun step n) response) := by
  have hid : n.prepared.id = n.id := rfl
  have hrun := send_eq (node?_put h hid)
    (n.run_prepared (s.walk.inputs step) (s.walk.vars s.job.config))
  rw [put_put s (n := n.begun _ _) (m := n.prepared) rfl] at hrun
  rw [runTask, prepare_eq h]
  dsimp only
  rw [hrun]
  by_cases heffect : n.kind.hasSideEffect = true
  · rw [if_pos heffect, if_pos heffect]
    rfl
  · rw [if_neg heffect, if_neg heffect]
    have hrunning : (s.begun step n).state = .running := if_neg heffect
    exact evaluate_eq (node?_put_self (m := s.begun step n) h) (.inl hrunning) (s.request step n)

theorem runCurrent_refused {error : JobError} (h : s.walk.refusal? = some error) :
    s.runCurrent services = (.error error, s) := by
  rw [runCurrent, h]

theorem runCurrent_finished (h : s.walk.refusal? = none) (hcurrent : s.walk.current? = none) :
    s.runCurrent services = (.ok .finished, s) := by
  rw [runCurrent, h, hcurrent]

/-- A decision that is waited for is asked for again. -/
theorem runCurrent_pending (h : s.AtHand step n) {request : Request} (hstatus : s.walk.status = .awaiting)
    (hrequest : n.lastRequest = some request) :
    s.runCurrent services = (.ok (.awaiting request), s) := by
  have hpending : s.pendingRequest? n.id = some request := by
    rw [pendingRequest?, if_pos hstatus, h.node?]
    exact hrequest
  rw [runCurrent, h.active, h.turn]
  dsimp only
  rw [h.taskOf]
  dsimp only
  rw [hpending]

/-- A task that is not waited for is begun. -/
theorem runCurrent_begins (h : s.AtHand step n)
    (hopen : s.walk.status = .awaiting → n.lastRequest = none) :
    s.runCurrent services = runTask services step n.id s := by
  have hpending : s.pendingRequest? n.id = none := by
    rw [pendingRequest?, h.node?]
    split
    · next hstatus => exact hopen hstatus
    · rfl
  rw [runCurrent, h.active, h.turn]
  dsimp only
  rw [h.taskOf]
  dsimp only
  rw [hpending]

theorem runCurrent_missing (h : s.walk.refusal? = none) (hcurrent : s.walk.current? = some step)
    (hmissing : s.job.graph.named? step.id = none) :
    ∃ error, s.runCurrent services = (.error error, s) := by
  rw [runCurrent, h, hcurrent]
  dsimp only
  rw [taskOf]
  cases hid : s.job.graph.idOf? step.id with
  | none => exact ⟨_, rfl⟩
  | some id =>
    have hnode : s.job.graph.node? id = none := by
      rw [TaskGraph.named?, hid] at hmissing
      exact hmissing
    have hpending : s.pendingRequest? id = none := by
      rw [pendingRequest?, hnode]
      split <;> rfl
    refine ⟨.unknownNode id, ?_⟩
    dsimp only
    rw [hpending]
    dsimp only
    rw [runTask, prepare, hnode]
    simp only [Option.any_none, Bool.false_eq_true, if_false, send_missing hnode]

/-- The task at hand is waited for, or it is begun. -/
theorem AtHand.run_cases (h : s.AtHand step n) (services : Services σ) :
    (∃ request, s.walk.status = .awaiting ∧ n.lastRequest = some request ∧
      s.runCurrent services = (.ok (.awaiting request), s)) ∨
    (s.walk.status = .awaiting → n.lastRequest = none) ∧
      s.runCurrent services = runTask services step n.id s := by
  by_cases hstatus : s.walk.status = .awaiting
  · cases hrequest : n.lastRequest with
    | some request => exact .inl ⟨request, hstatus, rfl, runCurrent_pending h hstatus hrequest⟩
    | none => exact .inr ⟨fun _ => rfl, runCurrent_begins h fun _ => hrequest⟩
  · exact .inr ⟨fun h => absurd h hstatus, runCurrent_begins h fun h => absurd h hstatus⟩

/-- What running the task at hand can come to. -/
theorem runCurrent_cases (services : Services σ) (s : Simulation σ) :
    (∃ error, s.runCurrent services = (.error error, s)) ∨
    s.runCurrent services = (.ok .finished, s) ∨
    (∃ step n, s.AtHand step n ∧ ∃ request, s.walk.status = .awaiting ∧ n.lastRequest = some request ∧
      s.runCurrent services = (.ok (.awaiting request), s)) ∨
    ∃ step n, s.AtHand step n ∧ (s.walk.status = .awaiting → n.lastRequest = none) ∧
      s.runCurrent services = runTask services step n.id s := by
  cases hrefusal : s.walk.refusal? with
  | some error => exact .inl ⟨error, runCurrent_refused hrefusal⟩
  | none =>
    cases hcurrent : s.walk.current? with
    | none => exact .inr (.inl (runCurrent_finished hrefusal hcurrent))
    | some step =>
      cases htask : s.job.graph.named? step.id with
      | none => exact .inl (runCurrent_missing hrefusal hcurrent htask)
      | some n =>
        have hhand : s.AtHand step n := ⟨hrefusal, hcurrent, htask⟩
        exact .inr (.inr ((hhand.run_cases services).imp (fun h => ⟨step, n, hhand, h⟩)
          fun h => ⟨step, n, hhand, h⟩))

/-- Running leaves everything as it was, but where a task is begun. -/
theorem runCurrent_left (services : Services σ) (s : Simulation σ) :
    (s.runCurrent services).2 = s ∨
      ∃ step n, s.AtHand step n ∧ (s.walk.status = .awaiting → n.lastRequest = none) ∧
        s.runCurrent services = runTask services step n.id s := by
  rcases runCurrent_cases services s with ⟨_, heq⟩ | heq | ⟨_, _, _, _, _, _, heq⟩ | hbegins
  · exact .inl (by rw [heq])
  · exact .inl (by rw [heq])
  · exact .inl (by rw [heq])
  · exact .inr hbegins

/-! ## Deciding on a side effect -/

theorem refusal?_of_awaiting (h : s.walk.status = .awaiting) : s.walk.refusal? = none := by
  rw [Walk.refusal?, h]

theorem AtHand.pendingTask (h : s.AtHand step n) (hstatus : s.walk.status = .awaiting) :
    s.pendingTask = .ok n.id := by
  rw [Simulation.pendingTask, h.active]
  dsimp only
  rw [if_neg fun hne => hne hstatus, h.turn]
  exact h.taskOf

/-- A side effect that is decided on without being waited for. -/
theorem pendingTask_of_ne (h : s.walk.refusal? = none) (hstatus : s.walk.status ≠ .awaiting) :
    s.pendingTask = .error (.walk .nothingPending) := by
  rw [pendingTask, h]
  exact if_pos hstatus

theorem execute_error {error : JobError} (h : s.pendingTask = .error error) :
    s.execute services = (.error error, s) := by
  rw [execute, h]

theorem skip_error {error : JobError} (h : s.pendingTask = .error error) : s.skip = (.error error, s) := by
  rw [skip, h]

/-- The evaluator is asked what the task was begun with. -/
theorem execute_eq (h : s.AtHand step n) (hstatus : s.walk.status = .awaiting)
    (hstate : n.state = .pendingSideEffect) {request : Request} (hrequest : n.lastRequest = some request) :
    s.execute services =
      let response := services.respond request s.state
      (.ok (.settled (n.executing.outcome response)),
        (((s.put n.executing).setStatus .ready).called services request).settled n.executing response) := by
  have hsend := send_eq h.node? (Node.execute_eq hstate)
  rw [hrequest] at hsend
  have hnode : ((s.put n.executing).setStatus .ready).job.graph.node? n.id = some n.executing :=
    node?_put h.node? rfl
  rw [execute, h.pendingTask hstatus]
  dsimp only
  rw [hsend]
  show evaluate services n.id request ((s.put n.executing).setStatus .ready) = _
  exact evaluate_eq (n := n.executing) hnode (.inr rfl) request

theorem skip_eq (h : s.AtHand step n) (hstatus : s.walk.status = .awaiting)
    (hstate : n.state = .pendingSideEffect) :
    s.skip = (.ok (.settled (n.outcome n.skipResponse)),
      (s.setStatus .ready).settled n n.skipResponse) := by
  have hsend := send_eq h.node? (Node.skip_eq hstate)
  rw [skip, h.pendingTask hstatus]
  dsimp only
  rw [hsend]
  rfl

/-- A task that is decided on is at hand, or not in the graph any more. -/
theorem of_pendingTask {id : String} (h : s.pendingTask = .ok id) :
    s.walk.status = .awaiting ∧
      (s.job.graph.node? id = none ∨ ∃ step n, s.AtHand step n ∧ n.id = id) := by
  rw [pendingTask] at h
  split at h
  · cases h
  · next hrefusal =>
    split at h
    · cases h
    · next hstatus =>
      refine ⟨not_not.1 hstatus, ?_⟩
      split at h
      · cases h
      · next step hturn =>
        rw [taskOf] at h
        split at h
        · next found hid =>
          cases h
          cases hnode : s.job.graph.node? id with
          | none => exact .inl rfl
          | some n =>
            have htask : s.job.graph.named? step.id = some n := by
              rw [TaskGraph.named?, hid]
              exact hnode
            exact .inr ⟨step, n, ⟨hrefusal, hturn, htask⟩, TaskGraph.id_of_node? hnode⟩
        · cases h

/-- What executing a side effect can come to. -/
theorem execute_cases (services : Services σ) (s : Simulation σ) :
    (∃ error, s.execute services = (.error error, s)) ∨
    ∃ step n, s.AtHand step n ∧ s.walk.status = .awaiting ∧ n.state = .pendingSideEffect ∧
      ((n.lastRequest = none ∧ ∃ error, s.execute services = (.error error, s.put n.executing)) ∨
      ∃ request, n.lastRequest = some request ∧
        s.execute services =
          let response := services.respond request s.state
          (.ok (.settled (n.executing.outcome response)),
            (((s.put n.executing).setStatus .ready).called services request).settled n.executing
              response)) := by
  cases hpending : s.pendingTask with
  | error error => exact .inl ⟨error, execute_error hpending⟩
  | ok id =>
    obtain ⟨hstatus, hmissing | ⟨step, n, hhand, rfl⟩⟩ := of_pendingTask hpending
    · refine .inl ⟨.unknownNode id, ?_⟩
      rw [execute, hpending]
      dsimp only
      rw [send_missing hmissing]
    · by_cases hstate : n.state = .pendingSideEffect
      · refine .inr ⟨step, n, hhand, hstatus, hstate, ?_⟩
        cases hrequest : n.lastRequest with
        | none =>
          have hsend := send_eq hhand.node? (Node.execute_eq hstate)
          rw [hrequest] at hsend
          refine .inl ⟨rfl, .walk (.nothingToExecute n.id), ?_⟩
          rw [execute, hpending]
          dsimp only
          rw [hsend]
          rfl
        | some request => exact .inr ⟨request, rfl, execute_eq hhand hstatus hstate hrequest⟩
      · have hsend := send_eq hhand.node? (Node.execute_eq_of_ne hstate)
        rw [put_self hhand.node?] at hsend
        refine .inl ⟨.walk (.nothingToExecute n.id), ?_⟩
        rw [execute, hpending]
        dsimp only
        rw [hsend]

/-- What skipping a side effect can come to. -/
theorem skip_cases (s : Simulation σ) :
    (∃ error, s.skip = (.error error, s)) ∨
    ∃ step n, s.AtHand step n ∧ s.walk.status = .awaiting ∧ n.state = .pendingSideEffect ∧
      s.skip = (.ok (.settled (n.outcome n.skipResponse)),
        (s.setStatus .ready).settled n n.skipResponse) := by
  cases hpending : s.pendingTask with
  | error error => exact .inl ⟨error, skip_error hpending⟩
  | ok id =>
    obtain ⟨hstatus, hmissing | ⟨step, n, hhand, rfl⟩⟩ := of_pendingTask hpending
    · refine .inl ⟨.unknownNode id, ?_⟩
      rw [skip, hpending]
      dsimp only
      rw [send_missing hmissing]
    · by_cases hstate : n.state = .pendingSideEffect
      · exact .inr ⟨step, n, hhand, hstatus, hstate, skip_eq hhand hstatus hstate⟩
      · have hsend := send_eq hhand.node? (Node.skip_eq_of_ne hstate)
        rw [put_self hhand.node?] at hsend
        refine .inl ⟨.walk (.notSkipped n.id), ?_⟩
        rw [skip, hpending]
        dsimp only
        rw [hsend]

end Simulation
end JobPipeline
