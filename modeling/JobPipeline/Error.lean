import JobPipeline.Disk
import JobPipeline.Json.Shape
import JobPipeline.Source.Rule

/-
What can go wrong with a job.

Every error is a cause with the names it is about; the wording is one function
per kind of cause.
-/
namespace JobPipeline

/-- A place in a text, both counted from one. -/
structure Location where
  line : Nat
  column : Nat
deriving DecidableEq, Repr

/-- Why a spec text is not a pipeline. -/
inductive SourceFault where
  /-- Reading stopped where only these rules could have gone on. -/
  | expected (rules : List Source.Rule)
  | declaredTwice (task : String)
  | untyped (task : String)
  | unknownKind (task kind : String)
  | undeclared (task : String)
  /-- The tasks that no order can reach. -/
  | cycle (tasks : List String)
  /-- Told by a parse service. -/
  | reported (message : String)
deriving DecidableEq, Repr

def unknownKindMessage (kind : String) : String := "unknown task type '" ++ kind ++ "'"

def SourceFault.message : SourceFault → String
  | .expected rules => "expected " ++ String.intercalate " or " (rules.map Source.Rule.name)
  | .declaredTwice task => "task '" ++ task ++ "' is declared more than once"
  | .untyped task => "task '" ++ task ++ "' has no type"
  | .unknownKind task kind => "task '" ++ task ++ "': " ++ unknownKindMessage kind
  | .undeclared task => "edge references undeclared task '" ++ task ++ "'"
  | .cycle tasks => "cycle detected between tasks: " ++ String.intercalate ", " tasks
  | .reported message => message

structure SourceError where
  fault : SourceFault
  location : Option Location
deriving DecidableEq, Repr

def SourceError.message (e : SourceError) : String :=
  let place := match e.location with
    | some at' => " at " ++ toString at'.line ++ ":" ++ toString at'.column
    | none => ""
  "Parse error" ++ place ++ ": " ++ e.fault.message

/-- Why two tasks cannot be connected. -/
inductive EdgeFault where
  | selfLoop
  | alreadyThere
deriving DecidableEq, Repr

def EdgeFault.message : EdgeFault → String
  | .selfLoop => "a task cannot feed itself"
  | .alreadyThere => "edge already exists"

/-- Why a walk over a plan cannot go on with the graph at hand. -/
inductive WalkFault where
  | missingTask (task : String)
  | notStarted (task : String)
  | nothingToExecute (id : String)
  | notSkipped (id : String)
  | nothingPending
  | pendingPastEnd
  | notSettled (task : String)
deriving DecidableEq, Repr

def WalkFault.message : WalkFault → String
  | .missingTask task => "planned task '" ++ task ++ "' is missing from the graph"
  | .notStarted task => "task '" ++ task ++ "' did not accept TRY_RUN"
  | .nothingToExecute id => "task '" ++ id ++ "' has no request to execute"
  | .notSkipped id => "task '" ++ id ++ "' could not skip its side effect"
  | .nothingPending => "no side effect is pending"
  | .pendingPastEnd => "side effect pending past the end of the plan"
  | .notSettled task => "task '" ++ task ++ "' did not settle"

/-- Why a spec cannot be imported. -/
inductive ImportFault where
  | invalidToml
  | noType
  | unknownType (name : String)
deriving DecidableEq, Repr

def unknownTypeMessage (name : String) : String := "invalid job type '" ++ name ++ "'"

def ImportFault.message : ImportFault → String
  | .invalidToml => "invalid TOML"
  | .noType => "job spec has no 'type'"
  | .unknownType name => unknownTypeMessage name

/-- Why a service outside of the program gave no answer. -/
inductive ServiceFault where
  /-- The address is no URL. -/
  | noUrl
  /-- No service can be asked at this URL. -/
  | unusable (url : String)
  | unreachable (url : String)
  | undecodable
  | refused (status : Nat) (body : String)
  /-- A reply of the wrong shape. -/
  | unexpected
  | reported (message : String)
deriving DecidableEq, Repr

def ServiceFault.message : ServiceFault → String
  | .noUrl => "HTTP error: builder error"
  | .unusable url => "HTTP error: builder error for url (" ++ url ++ ")"
  | .unreachable url => "HTTP error: error sending request for url (" ++ url ++ ")"
  | .undecodable => "HTTP error: error decoding response body"
  | .refused status body => "Service error " ++ toString status ++ ": " ++ body
  | .unexpected => "Unexpected response"
  | .reported message => message

inductive JobError where
  | duplicateIdentifier (name : String)
  | invalidIdentifier (name : String)
  | unknownNode (id : String)
  | unknownEdge (id : String)
  | invalidEdge (source target : String) (fault : EdgeFault)
  | cycle (source target : String)
  | parse (error : SourceError)
  | taskFailed (task message : String)
  | walk (fault : WalkFault)
  | unimportable (fault : ImportFault)
  | collaborator (fault : ServiceFault)
  | simulationInactive
  /-- A value that cannot be read, with what is known of its fault. -/
  | serialization (fault : Option Json.ShapeFault)
  | inputOutput (fault : DiskFault)
deriving DecidableEq, Repr

namespace JobError

def message : JobError → String
  | .duplicateIdentifier name =>
    "Duplicate identifier: '" ++ name ++ "' is already used by another task"
  | .invalidIdentifier name => "Invalid identifier: '" ++ name ++ "'"
  | .unknownNode id => "Unknown node: " ++ id
  | .unknownEdge id => "Unknown edge: " ++ id
  | .invalidEdge source target fault =>
    "Invalid edge " ++ source ++ " -> " ++ target ++ ": " ++ fault.message
  | .cycle source target => "Edge " ++ source ++ " -> " ++ target ++ " would create a cycle"
  | .parse error => error.message
  | .taskFailed task message => "Task '" ++ task ++ "' failed: " ++ message
  | .walk fault => "Compiler invariant violated: " ++ fault.message
  | .unimportable fault => "Import error: " ++ fault.message
  | .collaborator fault => "Collaborator error: " ++ fault.message
  | .simulationInactive => "Simulation is not active"
  | .serialization none => "Serialization error"
  | .serialization (some fault) => "Serialization error: " ++ fault.message
  | .inputOutput fault => "I/O error: " ++ fault.message

/-- The error stops a simulation until it is entered anew. -/
def isTerminal : JobError → Bool
  | .parse _ | .walk _ => true
  | _ => false

end JobError
end JobPipeline
