import JobPipeline.Json.Record

/-
What a simulation reports while it runs.

Every event carries the name of the run it belongs to, and one report of what
has happened.
-/
namespace JobPipeline

open Json (record? needed? string? word64? any?)

inductive Report where
  /-- A plan was made for the run. -/
  | started (tasks : Nat)
  /-- A task was handed to the evaluator. -/
  | taskStarted (task : String)
  /-- A task waits for its side effect to be executed or skipped. -/
  | sideEffectPending (task : String)
  | taskCompleted (task : String) (output : Json)
  | taskFailed (task : String) (error : String)
  /-- No plan could be made. -/
  | failed (error : String)
  /-- The run was left, and every task is idle. -/
  | exited
deriving DecidableEq, Repr

structure Event where
  run : String
  report : Report
deriving DecidableEq, Repr

namespace Report

/-- The word that tells the reports apart. -/
def name : Report → String
  | .started .. => "simulationStarted"
  | .taskStarted .. => "taskStarted"
  | .sideEffectPending .. => "sideEffectPending"
  | .taskCompleted .. => "taskCompleted"
  | .taskFailed .. => "taskFailed"
  | .failed .. => "simulationFailed"
  | .exited => "simulationExited"

/-- The task that a report is about. -/
def task? : Report → Option String
  | .taskStarted task | .sideEffectPending task | .taskCompleted task _ | .taskFailed task _ =>
    some task
  | .started _ | .failed _ | .exited => none

/-- The members that only this report has. -/
def details : Report → List (String × Json)
  | .started tasks => [("taskCount", .ofNat tasks)]
  | .taskCompleted _ output => [("output", output)]
  | .taskFailed _ error | .failed error => [("error", .string error)]
  | .taskStarted _ | .sideEffectPending _ | .exited => []

end Report

namespace Event

def toJson (event : Event) : Json :=
  let run := ("executionId", Json.string event.run)
  let members := match event.report with
    | .started _ | .failed _ | .exited => run :: event.report.details
    | .taskStarted task | .sideEffectPending task | .taskCompleted task _ | .taskFailed task _ =>
      ("taskId", .string task) :: run :: event.report.details
  .object (("type", .string event.report.name) :: members)

/-- Reads the members behind the word that tells the reports apart. -/
def ofMembers? (name : String) (json : Json) : Option Event :=
  if name = "simulationStarted" then do
    let members ← record? (.ofNames ["executionId", "taskCount"]) json
    return { run := ← needed? members "executionId" string?
             report := .started (← needed? members "taskCount" word64?) }
  else if name = "taskStarted" then do
    let members ← record? (.ofNames ["taskId", "executionId"]) json
    return { run := ← needed? members "executionId" string?
             report := .taskStarted (← needed? members "taskId" string?) }
  else if name = "sideEffectPending" then do
    let members ← record? (.ofNames ["taskId", "executionId"]) json
    return { run := ← needed? members "executionId" string?
             report := .sideEffectPending (← needed? members "taskId" string?) }
  else if name = "taskCompleted" then do
    let members ← record? (.ofNames ["taskId", "executionId", "output"]) json
    return { run := ← needed? members "executionId" string?
             report := .taskCompleted (← needed? members "taskId" string?)
               (← needed? members "output" any?) }
  else if name = "taskFailed" then do
    let members ← record? (.ofNames ["taskId", "executionId", "error"]) json
    return { run := ← needed? members "executionId" string?
             report := .taskFailed (← needed? members "taskId" string?)
               (← needed? members "error" string?) }
  else if name = "simulationFailed" then do
    let members ← record? (.ofNames ["executionId", "error"]) json
    return { run := ← needed? members "executionId" string?
             report := .failed (← needed? members "error" string?) }
  else if name = "simulationExited" then do
    let members ← record? (.ofNames ["executionId"]) json
    return { run := ← needed? members "executionId" string?, report := .exited }
  else none

/-- Reads an event: an object with the word among its members, or an array that
begins with it. -/
def ofJson? : Json → Option Event
  | .object members =>
    match members.partition fun m => m.1 = "type" with
    | ([(_, .string name)], others) => ofMembers? name (.object others)
    | _ => none
  | .array (.string name :: others) => ofMembers? name (.array others)
  | _ => none

end Event
end JobPipeline
