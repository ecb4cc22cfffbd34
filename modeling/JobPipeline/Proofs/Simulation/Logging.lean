import JobPipeline.Proofs.Simulation.Asking

/-
The record of what the evaluator is asked.

No step reads the state that the evaluator keeps.  So a simulation whose services keep a
record goes the way of the one whose services keep none, answer by answer and event by
event, and what the record shows is what any evaluator is asked.
-/
namespace JobPipeline
namespace Simulation

section

variable {σ : Type} {services : Services σ} {s : Simulation (σ × List Request)}

/-- Without the record of what the evaluator is asked. -/
def unlogged (s : Simulation (σ × List Request)) : Simulation σ := ⟨s.walk, s.job, s.state.1, s.events⟩

@[simp] theorem walk_unlogged (s : Simulation (σ × List Request)) : s.unlogged.walk = s.walk := rfl

@[simp] theorem job_unlogged (s : Simulation (σ × List Request)) : s.unlogged.job = s.job := rfl

@[simp] theorem events_unlogged (s : Simulation (σ × List Request)) : s.unlogged.events = s.events := rfl

@[simp] theorem taskOf_unlogged (s : Simulation (σ × List Request)) : s.unlogged.taskOf = s.taskOf := rfl

@[simp] theorem pendingTask_unlogged (s : Simulation (σ × List Request)) :
    s.unlogged.pendingTask = s.pendingTask := rfl

@[simp] theorem pendingRequest?_unlogged (s : Simulation (σ × List Request)) :
    s.unlogged.pendingRequest? = s.pendingRequest? := rfl

/-! ## One move -/

theorem enter_unlogged (run : String) :
    s.unlogged.enter services run = (s.enter services.logged run).map id unlogged := by
  rw [enter_eq, enter_eq, job_unlogged]
  show s.unlogged.planned (services.plan s.job.graph.source) run =
    (s.planned (services.plan s.job.graph.source) run).map id unlogged
  cases services.plan s.job.graph.source <;> rfl

theorem send_unlogged (key : String) (event : NodeEvent) :
    s.unlogged.send key event = (s.send key event).map id unlogged := rfl

theorem evaluate_unlogged (key : String) (request : Request) :
    evaluate services key request s.unlogged = (evaluate services.logged key request s).map id unlogged := by
  have hconcluded : ∀ r : Stepped (σ × List Request) (Option NodeEffect),
      concluded request (r.map id unlogged) = (concluded request r).map id unlogged := by
    rintro ⟨_ | _ | _ | _ | _, _⟩ <;> rfl
  exact hconcluded ((s.called services.logged request).send key (.settle (services.respond request s.state.1)))

theorem prepare_unlogged (key : String) : s.unlogged.prepare key = (s.prepare key).map id unlogged := by
  rw [prepare, prepare, job_unlogged]
  by_cases hidle : (s.job.graph.node? key).any (fun n => n.state = .idle) = true
  · rw [if_pos hidle, if_pos hidle]
    rfl
  · rw [if_neg hidle, if_neg hidle, send_unlogged]
    rcases s.send key .reset with ⟨_ | _, _⟩ <;> rfl

theorem runTask_unlogged (step : Instruction) (key : String) :
    runTask services step key s.unlogged = (runTask services.logged step key s).map id unlogged := by
  simp only [runTask, walk_unlogged, job_unlogged, prepare_unlogged]
  rcases s.prepare key with ⟨_ | _, t⟩
  · rfl
  · simp only [Prod.map, id, send_unlogged]
    rcases t.send key _ with ⟨_ | _ | _ | _ | _, t'⟩
    case ok.some.evaluate => exact evaluate_unlogged key _
    all_goals rfl

theorem runCurrent_unlogged :
    s.unlogged.runCurrent services = (s.runCurrent services.logged).map id unlogged := by
  simp only [runCurrent, walk_unlogged, taskOf_unlogged, pendingRequest?_unlogged]
  cases s.walk.refusal? with
  | some error => rfl
  | none =>
    cases s.walk.current? with
    | none => rfl
    | some step =>
      cases htask : s.taskOf step with
      | error error => simp only [htask]; rfl
      | ok key =>
        simp only [htask]
        cases s.pendingRequest? key with
        | some request => rfl
        | none => exact runTask_unlogged step key

theorem execute_unlogged : s.unlogged.execute services = (s.execute services.logged).map id unlogged := by
  simp only [execute, pendingTask_unlogged]
  cases s.pendingTask with
  | error error => rfl
  | ok key =>
    simp only [send_unlogged]
    rcases s.send key .execute with ⟨_ | _ | _ | _ | _, t⟩
    case ok.some.evaluate => exact evaluate_unlogged (s := t.setStatus .ready) key _
    all_goals rfl

theorem skip_unlogged : s.unlogged.skip = s.skip.map id unlogged := by
  simp only [skip, pendingTask_unlogged]
  cases s.pendingTask with
  | error error => rfl
  | ok key =>
    simp only [send_unlogged]
    rcases s.send key .skip with ⟨_ | _ | _ | _ | _, t⟩ <;> rfl

theorem move_unlogged (m : Move) : s.unlogged.move services m = (s.move services.logged m).map id unlogged := by
  cases m with
  | enter run => simp only [move, enter_unlogged]; rfl
  | run => simp only [move, runCurrent_unlogged]; rfl
  | execute => simp only [move, execute_unlogged]; rfl
  | skip => simp only [move, skip_unlogged]; rfl
  | next => rfl
  | previous => rfl
  | exit => rfl

end

/-! ## All moves -/

variable {σ : Type}

/-- What the moves are answered with. -/
def answers : Simulation σ → List (Services σ × Move) → List (Except JobError Answer)
  | _, [] => []
  | s, t :: turns => (s.move t.1 t.2).1 :: answers (s.move t.1 t.2).2 turns

/-- The same moves, with a record of what the evaluator is asked. -/
def loggedTurns (turns : List (Services σ × Move)) : List (Services (σ × List Request) × Move) :=
  turns.map fun t => (t.1.logged, t.2)

theorem through_unlogged (s : Simulation (σ × List Request)) (turns : List (Services σ × Move)) :
    s.unlogged.through turns = (s.through (loggedTurns turns)).unlogged := by
  induction turns generalizing s with
  | nil => rfl
  | cons t turns ih =>
    rw [through_cons, move_unlogged]
    exact ih _

theorem answers_unlogged (s : Simulation (σ × List Request)) (turns : List (Services σ × Move)) :
    s.unlogged.answers turns = s.answers (loggedTurns turns) := by
  induction turns generalizing s with
  | nil => rfl
  | cons t turns ih =>
    rw [answers, move_unlogged]
    exact congrArg (List.cons _) (ih _)

end Simulation
end JobPipeline
