import JobPipeline.Source.Parsed
import JobPipeline.Task.Json

/-
The JSON forms of a parsed pipeline.  An attribute is written as its text alone,
and its tokens are marked when it is read back.
-/
namespace JobPipeline

open Json (record? needed? string? word64? list? dict?)

namespace ParsedTask

def toJson (task : ParsedTask) : Json :=
  .object [("id", .string task.id), ("customId", .string task.name), ("kind", task.kind.toJson),
    ("attributes", .ofDict (task.attributes.map fun text => .string text.raw)),
    ("line", .ofNat task.line)]

def scope : Json.Scope := .ofNames ["id", "customId", "kind", "attributes", "line"]

def ofJson? (json : Json) : Option ParsedTask := do
  let members ← record? scope json
  return { id := ← needed? members "id" string?
           name := ← needed? members "customId" string?
           kind := ← needed? members "kind" TaskKind.ofJson?
           attributes :=
             ← needed? members "attributes" (dict? fun json => (string? json).map FieldText.marked)
           line := ← needed? members "line" word64? }

end ParsedTask

namespace ParsedEdge

def toJson (edge : ParsedEdge) : Json :=
  .object [("source", .string edge.source), ("target", .string edge.target)]

def scope : Json.Scope := .ofNames ["source", "target"]

def ofJson? (json : Json) : Option ParsedEdge := do
  let members ← record? scope json
  return { source := ← needed? members "source" string?
           target := ← needed? members "target" string? }

end ParsedEdge

namespace ParsedSource

def scope : Json.Scope :=
  .record [("tasks", .each ParsedTask.scope), ("edges", .each ParsedEdge.scope)]

def ofJson? (json : Json) : Option ParsedSource := do
  let members ← record? scope json
  return { tasks := ← needed? members "tasks" (list? ParsedTask.ofJson?)
           edges := ← needed? members "edges" (list? ParsedEdge.ofJson?) }

end ParsedSource
end JobPipeline
