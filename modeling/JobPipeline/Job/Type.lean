import JobPipeline.Number.Numeral
import JobPipeline.Task.Rules

/-
The types of job, the fields that each adds to the preamble, and the variables
that the run of such a job provides.
-/
namespace JobPipeline

inductive JobType where
  | cron
  | directRequest
  | fluxMonitor
  | keeper
  | offchainReporting
  | webhook
deriving DecidableEq, Repr, Inhabited

/-- How a field of a job type is written into the preamble. -/
inductive JobFieldStyle where
  /-- Quoted, behind the time zone. -/
  | cronSchedule
  | quoted
  /-- Quoted, and left out when empty. -/
  | quotedOptional
  /-- Without quotes, and left out when empty. -/
  | bare
deriving DecidableEq, Repr

structure JobFieldLayout where
  key : String
  style : JobFieldStyle
  default : String
deriving DecidableEq, Repr

/-- Type of a run variable. -/
inductive VariableType where
  | string
  | bytes
  | bytes32
  | int
  | float
  | decimal
  | bool
  | address
  | null
deriving DecidableEq, Repr

namespace VariableType

def all : List VariableType :=
  [.string, .bytes, .bytes32, .int, .float, .decimal, .bool, .address, .null]

def name : VariableType → String
  | .string => "string"
  | .bytes => "bytes"
  | .bytes32 => "bytes32"
  | .int => "int"
  | .float => "float"
  | .decimal => "decimal"
  | .bool => "bool"
  | .address => "address"
  | .null => "null"

def ofName? (name : String) : Option VariableType := all.find? fun t => t.name = name

end VariableType

/-- A variable of the job run, with the value it has in a simulation. -/
structure RunVariable where
  name : String
  type : VariableType
  value : String
deriving DecidableEq, Repr

namespace JobType

def all : List JobType :=
  [.cron, .directRequest, .fluxMonitor, .keeper, .offchainReporting, .webhook]

def name : JobType → String
  | .cron => "cron"
  | .directRequest => "directrequest"
  | .fluxMonitor => "fluxmonitor"
  | .keeper => "keeper"
  | .offchainReporting => "offchainreporting"
  | .webhook => "webhook"

def ofName? (name : String) : Option JobType := all.find? fun t => t.name = name

/-- The type that a spec means: letters in any case, blanks around the name. -/
def ofText? (s : String) : Option JobType :=
  ofName? (String.ofList (Text.lowerAscii (Text.trim s.toList)))

def defaultSchedule : String := "0 0 18 * * *"

/-- The fields that a type adds to the preamble, in the order they are written. -/
def fields : JobType → List JobFieldLayout
  | .cron => [⟨"schedule", .cronSchedule, defaultSchedule⟩]
  | .directRequest =>
    [⟨"contractAddress", .quoted, ""⟩, ⟨"minContractPaymentLinkJuels", .quotedOptional, "0"⟩,
      ⟨"minIncomingConfirmations", .bare, "1"⟩]
  | _ => []

def runVariables : JobType → List RunVariable
  | .directRequest =>
    [⟨"logBlockHash", .bytes32, ""⟩, ⟨"logBlockNumber", .int, ""⟩, ⟨"logTxHash", .bytes32, ""⟩,
      ⟨"logAddress", .address, ""⟩, ⟨"logTopics", .string, ""⟩, ⟨"logData", .bytes, ""⟩]
  | .webhook => [⟨"requestBody", .string, ""⟩]
  | _ => []

/-- A decimal number that is not below zero. -/
def isAmount (s : String) : Bool :=
  match Numeral.decimal? s with
  | some (.number x) => x.nonNegative
  | _ => false

/-- A value that a field of a job type can take.  Fields that the type does not
know take any. -/
def allows (type : JobType) (key value : String) : Bool :=
  match type with
  | .cron =>
    if key = "schedule" then
      let parts := (Text.words value.toList).length
      5 ≤ parts && parts ≤ 6
    else true
  | .directRequest =>
    if key = "contractAddress" then isAddress value
    else if key = "minContractPaymentLinkJuels" then isAmount (Text.trimmed value)
    else if key = "minIncomingConfirmations" then
      ((Numeral.natural? Numeral.most64 (Text.trimmed value)).any fun n => 1 ≤ n)
    else true
  | _ => true

end JobType
end JobPipeline
