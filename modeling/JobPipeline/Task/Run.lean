import JobPipeline.Error
import JobPipeline.Resolve

/-
What goes into the evaluation of a task and what comes out of it.
-/
namespace JobPipeline

/-- Place of a task on a canvas. -/
structure Position where
  x : Binary64
  y : Binary64
deriving DecidableEq, Repr, Inhabited

def Position.origin : Position := ⟨Binary64.zero, Binary64.zero⟩

/-- A stored answer that can stand in for a real side effect. -/
structure Mock where
  enabled : Bool
  /-- JSON where it reads as JSON, else a string. -/
  payload : String
deriving DecidableEq, Repr, Inhabited

namespace Mock

def off : Mock := ⟨false, ""⟩

def ofPayload (payload : String) : Mock := ⟨true, payload⟩

/-- The payload as a value; there is none while the mock is off or blank. -/
def value? (mock : Mock) : Option Json :=
  if mock.enabled && !Text.blank mock.payload then
    some ((Json.valueOf? mock.payload).getD (.string mock.payload))
  else none

/-- The mock that remembers a real answer. -/
def ofValue : Json → Mock
  | .string s => ofPayload s
  | json => ofPayload json.compact

end Mock

/-- A task handed to the evaluator, its fields resolved. -/
structure Request where
  task : String
  kind : TaskKind
  /-- Results of the tasks that feed it, in the order of the plan. -/
  inputs : List Json
  options : Dict Json
  vars : Vars
deriving DecidableEq, Repr

/-- The evaluator's answer: a value, or the message of a failure. -/
structure Response where
  value : Json
  vars : Vars
  error : Option String
deriving DecidableEq, Repr

namespace Response

def ofValue (value : Json) : Response := ⟨value, Dict.empty, none⟩

def ofError (message : String) : Response := ⟨.null, Dict.empty, some message⟩

end Response

/-- The settled outcome of one evaluation. -/
structure RunResult where
  task : String
  value : Json
  /-- The variables that the next task starts from. -/
  vars : Vars
  error : Option String
deriving DecidableEq, Repr

namespace RunResult

def isError (r : RunResult) : Bool := r.error.isSome

/-- The value, or the failure as an error. -/
def outcome (r : RunResult) : Except JobError Json :=
  match r.error with
  | none => .ok r.value
  | some message => .error (.taskFailed r.task message)

end RunResult
end JobPipeline
