import JobPipeline.Job.Config
import JobPipeline.Json.Record

/-
The JSON forms of a job's configuration.
-/
namespace JobPipeline

open Json (record? needed? given? optional? string? bool? word64? list? dict? word?)

namespace JobType

def toJson (type : JobType) : Json := .string type.name

def ofJson? : Json → Option JobType := word? ofName?

end JobType

namespace JobField

def toJson (field : JobField) : Json :=
  .object [("value", .string field.value), ("valid", .bool field.valid)]

def scope : Json.Scope := .ofNames ["value", "valid"]

def ofJson? (json : Json) : Option JobField := do
  let members ← record? scope json
  return { value := ← needed? members "value" string?
           valid := ← needed? members "valid" bool? }

end JobField

namespace RunVariable

def toJson (v : RunVariable) : Json :=
  .object [("name", .string v.name), ("dataType", .string v.type.name),
    ("value", .string v.value)]

def scope : Json.Scope := .ofNames ["name", "dataType", "value"]

def ofJson? (json : Json) : Option RunVariable := do
  let members ← record? scope json
  return { name := ← needed? members "name" string?
           type := ← needed? members "dataType" (word? VariableType.ofName?)
           value := ← needed? members "value" string? }

end RunVariable

namespace JobConfig

def toJson (config : JobConfig) : Json :=
  .object ([("jobType", config.type.toJson)] ++
    Json.whenSome "name" Json.string config.name ++
    Json.whenSome "externalJobId" Json.string config.externalId ++
    Json.whenSome "gasLimit" Json.ofNat config.gasLimit ++
    Json.whenSome "maxTaskDuration" Json.string config.maxTaskDuration ++
    Json.whenSome "forwardingAllowed" Json.bool config.forwardingAllowed ++
    [("specifics", .ofDict (config.specifics.map JobField.toJson)),
      ("runVariables", .array (config.runVariables.map RunVariable.toJson))])

def scope : Json.Scope :=
  .record [("jobType", .everything), ("name", .everything), ("externalJobId", .everything),
    ("gasLimit", .everything), ("maxTaskDuration", .everything),
    ("forwardingAllowed", .everything), ("specifics", .each JobField.scope),
    ("runVariables", .each RunVariable.scope)]

def ofJson? (json : Json) : Option JobConfig := do
  let members ← record? scope json
  return { type := ← needed? members "jobType" JobType.ofJson?
           name := ← optional? members "name" string?
           externalId := ← optional? members "externalJobId" string?
           gasLimit := ← optional? members "gasLimit" word64?
           maxTaskDuration := ← optional? members "maxTaskDuration" string?
           forwardingAllowed := ← optional? members "forwardingAllowed" bool?
           specifics := ← given? members "specifics" (dict? JobField.ofJson?) Dict.empty
           runVariables := ← given? members "runVariables" (list? RunVariable.ofJson?) [] }

end JobConfig
end JobPipeline
