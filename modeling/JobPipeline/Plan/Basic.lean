import JobPipeline.Source.Parsed

/-
Execution plans: the order in which the tasks of a pipeline are evaluated.

A task waits for the tasks whose results it is given, by an edge or by a token
in its attributes.  Of all tasks that wait for nothing, the one declared first
comes next, so one text has one plan.
-/
namespace JobPipeline

structure PlanInput where
  /-- Name of the task that is waited for. -/
  id : String
  /-- Its result is handed over as an input.  It is for an edge; a token only
  makes the task wait. -/
  propagates : Bool
deriving DecidableEq, Repr

/-- One step of a plan. -/
structure Instruction where
  /-- Name of the task. -/
  id : String
  inputs : List PlanInput
deriving DecidableEq, Repr

namespace Instruction

/-- Names of the tasks whose results are handed over, in order. -/
def propagated (step : Instruction) : List String :=
  (step.inputs.filter PlanInput.propagates).map PlanInput.id

end Instruction

structure Plan where
  tasks : List Instruction
deriving DecidableEq, Repr

namespace Plan

def empty : Plan := ⟨[]⟩

instance : Inhabited Plan := ⟨empty⟩

def order (plan : Plan) : List String := plan.tasks.map Instruction.id

def position? (plan : Plan) (id : String) : Option Nat := plan.tasks.findIdx? fun t => t.id = id

/-- The inputs a task has by edges.  A name stands for the last task that has
it, so a task declared again further on is fed by none. -/
def edgeInputs (p : ParsedSource) (task : ParsedTask) (later : List ParsedTask) :
    List PlanInput :=
  if Source.declares later task.name then []
  else (p.sourcesOf task.name).map fun source => ⟨source, true⟩

/-- Adds a task that a token names, unless it is listed, or the task itself, or
not declared. -/
def addReference (p : ParsedSource) (task : ParsedTask) (inputs : List PlanInput) (id : String) :
    List PlanInput :=
  if Source.declares p.tasks id && id ≠ task.name && !inputs.any fun i => i.id = id then
    inputs ++ [⟨id, false⟩]
  else inputs

/-- The names that a task's attributes refer to, in the order of the keys. -/
def referenceIds (task : ParsedTask) : List String :=
  task.attributes.values.flatMap fun text => (Field.findReferences text.raw).map Reference.id

/-- The tasks with their inputs, in the order of their declarations. -/
def instructionsFrom (p : ParsedSource) : List ParsedTask → List Instruction
  | [] => []
  | task :: later =>
    ⟨task.name, (referenceIds task).foldl (addReference p task) (edgeInputs p task later)⟩ ::
      instructionsFrom p later

def instructions (p : ParsedSource) : List Instruction := instructionsFrom p p.tasks

/-- A step that has no place in the order yet, and the names it still waits
for. -/
structure Waiting where
  step : Instruction
  names : List String
deriving DecidableEq, Repr

namespace Waiting

def of (step : Instruction) : Waiting := ⟨step, step.inputs.map PlanInput.id⟩

def release (name : String) (w : Waiting) : Waiting :=
  { w with names := w.names.filter (· ≠ name) }

end Waiting

/-- The first step that waits for nothing, between the steps before and behind
it. -/
def firstReady? : List Waiting → Option (List Waiting × Instruction × List Waiting)
  | [] => none
  | w :: rest =>
    if w.names = [] then some ([], w.step, rest)
    else (firstReady? rest).map fun (before, step, after) => (w :: before, step, after)

/-- Puts steps in order as long as one waits for nothing; what stays waits for a
name that never comes.  Each round takes a step, so as many rounds as there are
steps are enough. -/
def arrange : (fuel : Nat) → List Waiting → List Instruction × List Instruction
  | 0, left => ([], left.map Waiting.step)
  | fuel + 1, left =>
    match firstReady? left with
    | none => ([], left.map Waiting.step)
    | some (before, step, after) =>
      let left := before ++ after
      let left :=
        if after.any fun w => w.step.id = step.id then left
        else left.map (Waiting.release step.id)
      let (ordered, stuck) := arrange fuel left
      (step :: ordered, stuck)

/-- The plan of a pipeline.  Tasks that wait for one another have no order, and
nor have the tasks behind them. -/
def ofParsed (p : ParsedSource) : Except SourceError Plan :=
  let steps := instructions p
  match arrange steps.length (steps.map Waiting.of) with
  | (ordered, []) => .ok ⟨ordered⟩
  | (_, stuck) => .error ⟨.cycle (stuck.map Instruction.id), none⟩

def ofSource (text : String) : Except SourceError Plan :=
  match Source.parse text with
  | .error error => .error error
  | .ok parsed => ofParsed parsed

end Plan
end JobPipeline
