import JobPipeline.Task.Rules
import JobPipeline.Task.Run

/-
A task of a pipeline and the course of its evaluation.

A node changes only by the events sent to it.  Editing events are taken in every
state, the others only where the course stands ready for them:

    idle                 prepare   pendingRun
    pendingRun           run       running, or pendingSideEffect
    pendingSideEffect    execute   executingSideEffect
    pendingSideEffect    skip      success or failed
    running              settle    success or failed
    executingSideEffect  settle    success or failed

An event that the state does not take leaves the node as it is.  Some events
come back with an effect, which is for the owner of the node to act on.
-/
namespace JobPipeline

inductive NodeState where
  | idle
  | pendingRun
  | running
  | pendingSideEffect
  | executingSideEffect
  | success
  | failed
deriving DecidableEq, Repr, Inhabited

def NodeState.isSettled : NodeState → Bool
  | .success | .failed => true
  | _ => false

inductive NodeEvent where
  /-- Sets the given fields; others stay. -/
  | setFields (values : List (String × String))
  /-- Puts other fields in place of all of them. -/
  | resetFields (fields : Dict String)
  | setMock (mock : Mock)
  | setName (name : String)
  | addIncoming (name : String)
  | addOutgoing (name : String)
  | removeIncoming (name : String)
  | removeOutgoing (name : String)
  /-- A neighbour has a new name. -/
  | renameReference (old new : String)
  | prepare
  | run (inputs : List Json) (vars : Vars)
  /-- The evaluator has answered. -/
  | settle (response : Response)
  | execute
  | skip
  | reset
deriving DecidableEq, Repr

inductive NodeEffect where
  /-- Evaluate the request and send back the answer. -/
  | evaluate (request : Request)
  /-- Ask whether to execute the side effect or to use the mock. -/
  | prompt (request : Request)
  | settled (result : RunResult)
deriving DecidableEq, Repr

structure Node where
  /-- Given once and never changed. -/
  id : String
  /-- The name in the spec text and in tokens. -/
  name : String
  kind : TaskKind
  fields : Dict String
  /-- Names of the tasks that feed this one, in the order of the edges. -/
  incoming : List String
  outgoing : List String
  position : Position
  mock : Mock
  state : NodeState
  runResult : Option RunResult
  lastRequest : Option Request
deriving DecidableEq, Repr

namespace Node

/-- An idle task with its kind's defaults. -/
def fresh (id name : String) (kind : TaskKind) (position : Position) : Node :=
  { id, name, kind, fields := kind.defaults, incoming := [], outgoing := [], position,
    mock := Mock.off, state := .idle, runResult := none, lastRequest := none }

/-- The text of a field; an unset field is empty. -/
def field (node : Node) (key : String) : String := (node.fields.find? key).getD ""

def fieldErrors (node : Node) : List FieldError := node.kind.fieldErrors node.fields

def isValid (node : Node) : Bool := node.fieldErrors.isEmpty

/-- The text that a catalog field is resolved from: a blank list of incoming
tasks stands for the tasks that feed the node. -/
def optionText (node : Node) (layout : FieldLayout) : String :=
  let raw := node.field layout.key
  if layout.style = .incomingArray ∧ Text.blank raw then
    String.intercalate "," (node.incoming.map fun name => "$(" ++ name ++ ")")
  else raw

/-- The fields with their tokens resolved.  A field that the catalog does not
know is resolved as quoted text. -/
def options (node : Node) (vars : Vars) : Dict Json :=
  let known := node.kind.fields.map fun layout =>
    (layout.key, vars.resolveField layout.style (node.optionText layout))
  let others := node.fields.entries.filterMap fun (key, raw) =>
    if known.any (·.1 = key) then none else some (key, vars.resolveField .quoted raw)
  Dict.ofList (known ++ others)

def request (node : Node) (inputs : List Json) (vars : Vars) : Request :=
  { task := node.name, kind := node.kind, inputs, options := node.options vars, vars }

/-- Settles with an answer.  The variables are those of the answer or, when it
brings none, of the request; a success adds its value under the task's name. -/
def settleWith (node : Node) (response : Response) : Node × Option NodeEffect :=
  let vars :=
    if response.vars.isEmpty then (node.lastRequest.map Request.vars).getD Dict.empty
    else response.vars
  let (state, result) : NodeState × RunResult := match response.error with
    | some message => (.failed, ⟨node.name, .null, vars, some message⟩)
    | none => (.success, ⟨node.name, response.value, vars.insert node.name response.value, none⟩)
  ({ node with state, runResult := some result }, some (.settled result))

/-- The answer that skipping a side effect settles with. -/
def skipResponse (node : Node) : Response :=
  match node.mock.value? with
  | some value => .ofValue value
  | none => .ofError "no stored mock response to use"

/-- The course of evaluation from state to state. -/
def advance (node : Node) (event : NodeEvent) : Node × Option NodeEffect :=
  match node.state, event with
  | .idle, .prepare => ({ node with state := .pendingRun }, none)
  | .pendingRun, .run inputs vars =>
    let request := node.request inputs vars
    if node.kind.hasSideEffect then
      ({ node with state := .pendingSideEffect, lastRequest := some request },
        some (.prompt request))
    else
      ({ node with state := .running, lastRequest := some request }, some (.evaluate request))
  | .pendingSideEffect, .execute =>
    ({ node with state := .executingSideEffect }, node.lastRequest.map .evaluate)
  | .pendingSideEffect, .skip => node.settleWith node.skipResponse
  | .running, .settle response => node.settleWith response
  | .executingSideEffect, .settle response =>
    let mock := if response.error.isNone then Mock.ofValue response.value else node.mock
    ({ node with mock }).settleWith response
  | _, _ => (node, none)

def send (node : Node) (event : NodeEvent) : Node × Option NodeEffect :=
  match event with
  | .setFields values => ({ node with fields := node.fields.insertAll values }, none)
  | .resetFields fields => ({ node with fields }, none)
  | .setMock mock => ({ node with mock }, none)
  | .setName name => ({ node with name, runResult := none }, none)
  | .addIncoming name =>
    if name ∈ node.incoming then (node, none)
    else ({ node with incoming := node.incoming ++ [name], runResult := none }, none)
  | .removeIncoming name =>
    if name ∈ node.incoming then
      ({ node with incoming := node.incoming.filter (· ≠ name), runResult := none }, none)
    else (node, none)
  | .addOutgoing name =>
    if name ∈ node.outgoing then (node, none)
    else ({ node with outgoing := node.outgoing ++ [name] }, none)
  | .removeOutgoing name => ({ node with outgoing := node.outgoing.filter (· ≠ name) }, none)
  | .renameReference old new =>
    let follow := fun name => if name = old then new else name
    ({ node with
        incoming := node.incoming.map follow, outgoing := node.outgoing.map follow }, none)
  | .reset => ({ node with state := .idle, runResult := none, lastRequest := none }, none)
  | event => node.advance event

/-- A task of another kind in the same place, with that kind's defaults. -/
def replaceKind (node : Node) (kind : TaskKind) : Node :=
  (({ node with kind }).send (.resetFields kind.defaults)).1

end Node
end JobPipeline
