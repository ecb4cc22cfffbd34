import JobPipeline.Document
import JobPipeline.Plan.Basic
import JobPipeline.Simulation.Event

/-
Walking through a plan one task at a time.

A simulation owns the sequence only.  Each step sends events to the node whose
turn it is, has the evaluator answer what the node asks, and sends the answer
back.  A task with a side effect stops the walk until someone says whether to
execute or to skip it; a task that fails stays where it is until the walk is
moved on.

The parse service and the evaluator are functions, the evaluator with a state of
its own, so a step is a function of what they answer.  Each step takes the services
as they are when it is made: what makes plans need not answer a text the next time as
it did before.  The name of a run comes from outside as well.
-/
namespace JobPipeline

inductive SimulationStatus where
  | inactive
  /-- The task at hand can be run. -/
  | ready
  /-- The task at hand waits for its side effect to be executed or skipped. -/
  | awaiting
  /-- There is no plan, and none until the simulation is entered anew. -/
  | failed (error : SourceError)
deriving DecidableEq, Repr

/-- What a step came to. -/
inductive StepOutcome where
  | settled (result : RunResult)
  | awaiting (request : Request)
  /-- The plan has no further task. -/
  | finished
deriving DecidableEq, Repr

/-- Those outside who make plans and evaluate tasks, as they are at one step. -/
structure Services (σ : Type) where
  plan : (source : String) → Except JobError Plan
  evaluate : Request → σ → Except JobError Response × σ

namespace Services

/-- The plan that the program makes by itself. -/
def localPlan (source : String) : Except JobError Plan :=
  (Plan.ofSource source).mapError JobError.parse

end Services

/-- Where a walk stands. -/
structure Walk where
  plan : Plan
  index : Nat
  results : List RunResult
  status : SimulationStatus
  /-- The name of the run; empty before the first. -/
  run : String
  /-- How often a simulation has been entered. -/
  runs : Nat
deriving DecidableEq, Repr

namespace Walk

def start : Walk := ⟨Plan.empty, 0, [], .inactive, "", 0⟩

/-- The name of the next run where none is given. -/
def nextRun (w : Walk) : String := "exec-" ++ toString (w.runs + 1)

def isActive (w : Walk) : Bool := w.status ≠ .inactive

def current? (w : Walk) : Option Instruction := w.plan.tasks[w.index]?

def result? (w : Walk) (task : String) : Option RunResult := w.results.find? fun r => r.task = task

/-- Why no step can be made. -/
def refusal? (w : Walk) : Option JobError :=
  match w.status with
  | .inactive => some .simulationInactive
  | .failed error => some (.parse error)
  | .ready | .awaiting => none

/-- The results without that of a task. -/
def without (task : String) (results : List RunResult) : List RunResult :=
  results.filter fun r => r.task ≠ task

/-- Keeps a result, as the last; a success moves the walk on. -/
def record (w : Walk) (result : RunResult) : Walk :=
  { w with
    results := without result.task w.results ++ [result]
    index := if result.isError then w.index else w.index + 1 }

/-- The results that are handed to a task, null where there is none. -/
def inputs (w : Walk) (step : Instruction) : List Json :=
  step.propagated.map fun task =>
    match w.result? task with
    | some r => if r.isError then .null else r.value
    | none => .null

/-- The variables that the next task sees: those of the last result, or of the
job when there is none, and over them the value of every success. -/
def vars (w : Walk) (config : JobConfig) : Vars :=
  let carried := match w.results.getLast? with
    | some r => r.vars
    | none => config.jobVars
  carried.insertAll ((w.results.filter fun r => !r.isError).map fun r => (r.task, r.value))

/-- A side effect is no longer waited for. -/
def resume (w : Walk) : Walk := if w.status = .awaiting then { w with status := .ready } else w

/-- Moves on without running the task at hand. -/
def next (w : Walk) : Except JobError Nat × Walk :=
  match w.refusal? with
  | some error => (.error error, w)
  | none =>
    let index := if w.index < w.plan.tasks.length then w.index + 1 else w.index
    let w := { w with index }.resume
    (.ok w.index, w)

/-- Moves back to the task before, and forgets its result. -/
def previous (w : Walk) : Except JobError Nat × Walk :=
  match w.refusal? with
  | some error => (.error error, w)
  | none =>
    let back := match w.index with
      | 0 => w
      | index + 1 =>
        let results := match w.plan.tasks[index]? with
          | some step => without step.id w.results
          | none => w.results
        { w with index, results }
    (.ok back.resume.index, back.resume)

end Walk

/-- A walk with the job it is made on, the evaluator's state, and the events
that have been sent. -/
structure Simulation (σ : Type) where
  walk : Walk
  job : Job
  state : σ
  events : List Event

/-- The answer of a step and the simulation behind it. -/
abbrev Stepped (σ α : Type) := Except JobError α × Simulation σ

namespace Simulation

variable {σ : Type}

def emit (s : Simulation σ) (report : Report) : Simulation σ :=
  { s with events := s.events ++ [⟨s.walk.run, report⟩] }

def setStatus (s : Simulation σ) (status : SimulationStatus) : Simulation σ :=
  { s with walk := { s.walk with status } }

def send (s : Simulation σ) (id : String) (event : NodeEvent) :
    Stepped σ (Option NodeEffect) :=
  let (answer, graph) := s.job.graph.send id event
  (answer, { s with job := { s.job with graph } })

def record (s : Simulation σ) (result : RunResult) : Simulation σ :=
  let report := match result.error with
    | none => Report.taskCompleted result.task result.value
    | some error => .taskFailed result.task error
  { s.emit report with walk := s.walk.record result }

def clear (s : Simulation σ) : Simulation σ :=
  { s with
    job := { s.job with graph := s.job.graph.resetAll }
    walk := { s.walk with plan := Plan.empty, index := 0, results := [] } }

/-- Enters a new run, with a plan for the job as it is now. -/
def enter (services : Services σ) (s : Simulation σ) (run : String := s.walk.nextRun) : Stepped σ Unit :=
  let s := s.clear
  let s := { s with walk := { s.walk with run, runs := s.walk.runs + 1 } }
  match services.plan s.job.compile.source with
  | .ok plan =>
    let s := s.emit (.started plan.tasks.length)
    (.ok (), { s with walk := { s.walk with plan, status := .ready } })
  | .error error =>
    let status := match error with
      | .parse fault => SimulationStatus.failed fault
      | _ => .inactive
    (.error error, (s.emit (.failed error.message)).setStatus status)

/-- Leaves the run.  Mocks that executed side effects have set stay. -/
def exit (s : Simulation σ) : Simulation σ := (s.clear.setStatus .inactive).emit .exited

/-- Has the evaluator answer a request, and settles the task with the answer.  An
evaluator that cannot be reached fails the task. -/
def evaluate (services : Services σ) (id : String) (request : Request) (s : Simulation σ) :
    Stepped σ StepOutcome :=
  let s := s.emit (.taskStarted request.task)
  let (answer, state) := services.evaluate request s.state
  let s := { s with state }
  let response := match answer with
    | .ok response => response
    | .error error => .ofError error.message
  match s.send id (.settle response) with
  | (.error error, s) => (.error error, s)
  | (.ok (some (.settled result)), s) => (.ok (.settled result), s.record result)
  | (.ok _, s) => (.error (.walk (.notSettled request.task)), s)

/-- The id of the task that a step of the plan names. -/
def taskOf (s : Simulation σ) (step : Instruction) : Except JobError String :=
  match s.job.graph.idOf? step.id with
  | some id => .ok id
  | none => .error (.walk (.missingTask step.id))

/-- The request that the side effect waited for was asked with. -/
def pendingRequest? (s : Simulation σ) (id : String) : Option Request :=
  if s.walk.status = .awaiting then (s.job.graph.node? id).bind Node.lastRequest else none

/-- Brings a task to where it can be run. -/
def prepare (s : Simulation σ) (id : String) : Stepped σ (Option NodeEffect) :=
  let idle := (s.job.graph.node? id).any fun n => n.state = .idle
  match if idle then (.ok none, s) else s.send id .reset with
  | (.error error, s) => (.error error, s)
  | (.ok _, s) => s.send id .prepare

def runTask (services : Services σ) (step : Instruction) (id : String) (s : Simulation σ) :
    Stepped σ StepOutcome :=
  let inputs := s.walk.inputs step
  let vars := s.walk.vars s.job.config
  match s.prepare id with
  | (.error error, s) => (.error error, s)
  | (.ok _, s) =>
    match s.send id (.run inputs vars) with
    | (.error error, s) => (.error error, s)
    | (.ok (some (.evaluate request)), s) => evaluate services id request s
    | (.ok (some (.prompt request)), s) =>
      (.ok (.awaiting request), (s.setStatus .awaiting).emit (.sideEffectPending step.id))
    | (.ok (some (.settled result)), s) => (.ok (.settled result), s.record result)
    | (.ok none, s) => (.error (.walk (.notStarted step.id)), s)

def runCurrent (services : Services σ) (s : Simulation σ) : Stepped σ StepOutcome :=
  match s.walk.refusal? with
  | some error => (.error error, s)
  | none =>
    match s.walk.current? with
    | none => (.ok .finished, s)
    | some step =>
      match s.taskOf step with
      | .error error => (.error error, s)
      | .ok id =>
        match s.pendingRequest? id with
        | some request => (.ok (.awaiting request), s)
        | none => runTask services step id s

/-- The id of the task whose side effect is waited for. -/
def pendingTask (s : Simulation σ) : Except JobError String :=
  match s.walk.refusal? with
  | some error => .error error
  | none =>
    if s.walk.status ≠ .awaiting then .error (.walk .nothingPending)
    else
      match s.walk.current? with
      | none => .error (.walk .pendingPastEnd)
      | some step => s.taskOf step

def execute (services : Services σ) (s : Simulation σ) : Stepped σ StepOutcome :=
  match s.pendingTask with
  | .error error => (.error error, s)
  | .ok id =>
    match s.send id .execute with
    | (.error error, s) => (.error error, s)
    | (.ok (some (.evaluate request)), s) => evaluate services id request (s.setStatus .ready)
    | (.ok _, s) => (.error (.walk (.nothingToExecute id)), s)

/-- Settles the side effect that is waited for with the task's mock. -/
def skip (s : Simulation σ) : Stepped σ StepOutcome :=
  match s.pendingTask with
  | .error error => (.error error, s)
  | .ok id =>
    match s.send id .skip with
    | (.error error, s) => (.error error, s)
    | (.ok (some (.settled result)), s) => (.ok (.settled result), (s.setStatus .ready).record result)
    | (.ok _, s) => (.error (.walk (.notSkipped id)), s)

/-- Moves on without running the task at hand. -/
def next (s : Simulation σ) : Stepped σ Nat :=
  let (answer, walk) := s.walk.next
  (answer, { s with walk })

/-- Moves back to the task before, and forgets its result. -/
def previous (s : Simulation σ) : Stepped σ Nat :=
  let (answer, walk) := s.walk.previous
  (answer, { s with walk })

end Simulation
end JobPipeline
