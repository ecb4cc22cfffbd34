import JobPipeline.Json.Shape
import JobPipeline.Plan.Basic

/-
The JSON forms of execution plans.
-/
namespace JobPipeline

open Json (Record ShapeFault)

namespace PlanInput

def toJson (input : PlanInput) : Json :=
  .object [("id", .string input.id), ("propagateResult", .bool input.propagates)]

def scope : Json.Scope := .ofNames ["id", "propagateResult"]

def ofJson : Json → Except ShapeFault PlanInput :=
  Record.read "struct PlanInput" scope fun r => do
    let id ← r.member? "id" Json.asString
    let propagates ← r.member? "propagateResult" Json.asBool
    return { id := ← r.need "id" id, propagates := ← r.need "propagateResult" propagates }

end PlanInput

namespace Instruction

def toJson (step : Instruction) : Json :=
  .object [("id", .string step.id), ("inputs", .array (step.inputs.map PlanInput.toJson))]

def scope : Json.Scope := .record [("id", .everything), ("inputs", .each PlanInput.scope)]

def ofJson : Json → Except ShapeFault Instruction :=
  Record.read "struct TaskInstruction" scope fun r => do
    let id ← r.member? "id" Json.asString
    let inputs ← r.member? "inputs" (Json.asList PlanInput.ofJson)
    return { id := ← r.need "id" id, inputs := inputs.getD [] }

end Instruction

namespace Plan

def toJson (plan : Plan) : Json :=
  .object [("tasks", .array (plan.tasks.map Instruction.toJson))]

def scope : Json.Scope := .record [("tasks", .each Instruction.scope)]

def ofJson : Json → Except ShapeFault Plan :=
  Record.read "struct ExecutionPlan" scope fun r => do
    let tasks ← r.member? "tasks" (Json.asList Instruction.ofJson)
    return { tasks := ← r.need "tasks" tasks }

end Plan
end JobPipeline
