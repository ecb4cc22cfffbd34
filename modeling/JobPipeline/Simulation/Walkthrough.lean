import JobPipeline.Simulation.Basic

/-
Walking through a whole plan.

Side effects are all executed or all skipped, and a task that fails is passed
by, so the walk comes to the end of every plan that fits the job.
-/
namespace JobPipeline

/-- What ends a walk before the end of its plan. -/
inductive WalkStop where
  | failed (error : JobError)
  | leftPending (task : String)
deriving DecidableEq, Repr

def WalkStop.message : WalkStop → String
  | .failed error => error.message
  | .leftPending task => "side effect '" ++ task ++ "' was left pending"

namespace Simulation

variable {σ : Type}

/-- Runs the task at hand, and decides on its side effect if it has one. -/
def runDecided (services : Services σ) (execute : Bool) (s : Simulation σ) :
    Stepped σ StepOutcome :=
  match s.runCurrent services with
  | (.ok (.awaiting _), s) => if execute then s.execute services else s.skip
  | stepped => stepped

/-- Moves on behind a result; a success has moved the walk on by itself. -/
def passBy (result : RunResult) (s : Simulation σ) : Stepped σ Nat :=
  if result.isError then s.next else (.ok s.walk.index, s)

/-- The results of the tasks that are left, in the order of the plan, and what
ended the walk if it did not reach the end. -/
def walkOn (services : Services σ) (execute : Bool) :
    (fuel : Nat) → Simulation σ → List RunResult × Option WalkStop × Simulation σ
  | 0, s => ([], none, s)
  | fuel + 1, s =>
    match s.runDecided services execute with
    | (.error error, s) => ([], some (.failed error), s)
    | (.ok .finished, s) => ([], none, s)
    | (.ok (.awaiting request), s) => ([], some (.leftPending request.task), s)
    | (.ok (.settled result), s) =>
      match s.passBy result with
      | (.error error, s) => ([result], some (.failed error), s)
      | (.ok _, s) =>
        let (results, stop, s) := s.walkOn services execute fuel
        (result :: results, stop, s)

/-- Enters a run, walks through it and leaves it.  Every task settles once, so
one step for each and one to see the end are enough. -/
def walkThrough (services : Services σ) (execute : Bool) (s : Simulation σ) (run : String := s.walk.nextRun) :
    List RunResult × Option WalkStop × Simulation σ :=
  match s.enter services run with
  | (.error error, s) => ([], some (.failed error), s)
  | (.ok (), s) =>
    match s.walkOn services execute (s.walk.plan.tasks.length + 1) with
    | (results, none, s) => (results, none, s.exit)
    | stopped => stopped

end Simulation
end JobPipeline
