import JobPipeline.Job.Type
import JobPipeline.Resolve

/-
The configuration of a job: what the preamble of its spec says.
-/
namespace JobPipeline

/-- A value of a field that belongs to the job type, and whether it satisfied
the type's rule when it was set. -/
structure JobField where
  value : String
  valid : Bool
deriving DecidableEq, Repr

namespace RunVariable

/-- The variable as a value.  Text that its type cannot read stays a string. -/
def typed (v : RunVariable) : Json :=
  let text := Text.trimmed v.value
  match v.type with
  | .null => .null
  | .int => match Numeral.integer? text with
    | some n => .number (.whole n)
    | none => .string v.value
  | .float => match Numeral.decimal? text with
    | some (.number x) => if x.isFinite then .number (.real x) else .string v.value
    | _ => .string v.value
  | .bool =>
    if text = "true" then .bool true
    else if text = "false" then .bool false
    else .string v.value
  | _ => .string v.value

end RunVariable

structure JobConfig where
  type : JobType
  name : Option String
  externalId : Option String
  gasLimit : Option Nat
  maxTaskDuration : Option String
  forwardingAllowed : Option Bool
  /-- Fields of the job type, by key. -/
  specifics : Dict JobField
  runVariables : List RunVariable
deriving DecidableEq, Repr

namespace JobConfig

/-- Sets a field of the job type, judging it by the type's rule. -/
def setSpecific (config : JobConfig) (key value : String) : JobConfig :=
  { config with specifics := config.specifics.insert key ⟨value, config.type.allows key value⟩ }

def ofType (type : JobType) : JobConfig :=
  type.fields.foldl (fun config layout => config.setSpecific layout.key layout.default)
    { type, name := none, externalId := none, gasLimit := none, maxTaskDuration := none,
      forwardingAllowed := none, specifics := Dict.empty, runVariables := type.runVariables }

/-- Another type with its own fields and variables; the rest stays. -/
def setType (config : JobConfig) (type : JobType) : JobConfig :=
  { ofType type with
    name := config.name
    externalId := config.externalId
    gasLimit := config.gasLimit
    maxTaskDuration := config.maxTaskDuration
    forwardingAllowed := config.forwardingAllowed }

/-- Sets the value of a run variable, adding it as a string if there is none of
the name. -/
def setRunVariable (config : JobConfig) (name value : String) : JobConfig :=
  let rec put : List RunVariable → List RunVariable
    | [] => [⟨name, .string, value⟩]
    | v :: rest => if v.name = name then { v with value } :: rest else v :: put rest
  { config with runVariables := put config.runVariables }

def isValid (config : JobConfig) : Bool := config.specifics.values.all JobField.valid

/-- The variable spaces that the first task of a run sees. -/
def jobVars (config : JobConfig) : Vars :=
  let spec : Dict Json := Dict.ofList
    [("databaseID", Json.ofNat 0), ("externalJobID", .string (config.externalId.getD "")),
      ("name", .string (config.name.getD ""))]
  let run : Dict Json := Dict.ofList (config.runVariables.map fun v => (v.name, v.typed))
  Dict.ofList [("jobSpec", .ofDict spec), ("jobRun", .ofDict run)]

end JobConfig
end JobPipeline
