import JobPipeline.Json.Record
import JobPipeline.Json.Shape
import JobPipeline.Task.Node

/-
The JSON forms of tasks and of what passes between them and the evaluator.

Every form is a record; a member that has nothing to say may be left out where
the form says so.
-/
namespace JobPipeline

open Json (Record ShapeFault record? needed? optional? string? bool? binary64? any? list? dict? word?)

namespace TaskKind

def toJson (kind : TaskKind) : Json := .string kind.name

def ofJson? : Json → Option TaskKind := word? ofName?

end TaskKind

namespace FieldLayout

def toJson (layout : FieldLayout) : Json :=
  .object [("key", .string layout.key), ("style", .string layout.style.name),
    ("default", .string layout.default), ("rule", .string layout.rule.name),
    ("omitWhenEmpty", .bool layout.omitWhenEmpty)]

end FieldLayout

namespace TaskDescription

def toJson (d : TaskDescription) : Json :=
  .object [("kind", d.kind.toJson), ("label", .string d.label),
    ("category", .string d.category.name), ("description", .string d.summary),
    ("fields", .array (d.fields.map FieldLayout.toJson))]

end TaskDescription

namespace FieldError

def toJson (e : FieldError) : Json :=
  .object [("field", .string e.field), ("message", .string e.message)]

def scope : Json.Scope := .ofNames ["field", "message"]

def ofJson? (json : Json) : Option FieldError := do
  let members ← record? scope json
  return { field := ← needed? members "field" string?
           message := ← needed? members "message" string? }

end FieldError

namespace Position

def toJson (p : Position) : Json :=
  .object [("x", .number (.real p.x)), ("y", .number (.real p.y))]

def scope : Json.Scope := .ofNames ["x", "y"]

def ofJson? (json : Json) : Option Position := do
  let members ← record? scope json
  return { x := ← needed? members "x" binary64?
           y := ← needed? members "y" binary64? }

end Position

namespace Mock

def toJson (mock : Mock) : Json :=
  .object [("enabled", .bool mock.enabled), ("payload", .string mock.payload)]

def scope : Json.Scope := .ofNames ["enabled", "payload"]

def ofJson? (json : Json) : Option Mock := do
  let members ← record? scope json
  return { enabled := ← needed? members "enabled" bool?
           payload := ← needed? members "payload" string? }

end Mock

namespace Request

def toJson (r : Request) : Json :=
  .object [("id", .string r.task), ("taskKind", r.kind.toJson), ("inputs", .array r.inputs),
    ("options", .ofDict r.options), ("variables", .ofDict r.vars)]

def scope : Json.Scope := .ofNames ["id", "taskKind", "inputs", "options", "variables"]

def ofJson? (json : Json) : Option Request := do
  let members ← record? scope json
  return { task := ← needed? members "id" string?
           kind := ← needed? members "taskKind" TaskKind.ofJson?
           inputs := ← needed? members "inputs" (list? any?)
           options := ← needed? members "options" (dict? any?)
           vars := ← needed? members "variables" (dict? any?) }

end Request

namespace Response

def toJson (r : Response) : Json :=
  .object ([("value", r.value), ("vars", .ofDict r.vars)] ++
    Json.whenSome "error" Json.string r.error)

def scope : Json.Scope := .ofNames ["value", "vars", "error"]

/-- Why the member with a name cannot be read. -/
def fault? (name : String) (json : Json) : Option ShapeFault :=
  if name = "vars" then Json.faultOf? Json.asDict json
  else if name = "error" then Json.faultOf? (Json.asOptional Json.asString) json
  else none

def ofJson : Json → Except ShapeFault Response :=
  Record.read "struct EvaluationResponse" scope fun r => do
    r.inspect fault?
    let value ← r.member? "value" fun json => .ok json.canonical
    let vars ← r.member? "vars" Json.asDict
    let error ← r.member? "error" (Json.asOptional Json.asString)
    return { value := value.getD .null, vars := vars.getD Dict.empty, error := error.join }

end Response

namespace RunResult

def toJson (r : RunResult) : Json :=
  .object ([("nodeId", .string r.task), ("value", r.value), ("vars", .ofDict r.vars)] ++
    Json.whenSome "error" Json.string r.error)

def scope : Json.Scope := .ofNames ["nodeId", "value", "vars", "error"]

def ofJson? (json : Json) : Option RunResult := do
  let members ← record? scope json
  return { task := ← needed? members "nodeId" string?
           value := ← needed? members "value" any?
           vars := ← needed? members "vars" (dict? any?)
           error := ← optional? members "error" string? }

end RunResult

namespace NodeState

def all : List NodeState :=
  [.idle, .pendingRun, .running, .pendingSideEffect, .executingSideEffect, .success, .failed]

def name : NodeState → String
  | .idle => "idle"
  | .pendingRun => "pendingRun"
  | .running => "running"
  | .pendingSideEffect => "pendingSideEffect"
  | .executingSideEffect => "executingSideEffect"
  | .success => "success"
  | .failed => "error"

def ofName? (name : String) : Option NodeState := all.find? fun s => s.name = name

def toJson (state : NodeState) : Json := .string state.name

def ofJson? : Json → Option NodeState := word? ofName?

end NodeState
end JobPipeline
