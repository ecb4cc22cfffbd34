import JobPipeline.Field.Value
import JobPipeline.Source.Grammar
import JobPipeline.Task.Catalog

/-
A pipeline as its text declares it.

Tasks stand in the order of their declarations, and take their ids from it.  A
chain of arrows is its consecutive pairs, and each pair is kept once.  Arrows may
stand above the tasks they join.
-/
namespace JobPipeline

structure ParsedTask where
  id : String
  name : String
  kind : TaskKind
  /-- All attributes but the type, by key; the last of equal keys. -/
  attributes : Dict FieldText
  line : Nat
deriving DecidableEq, Repr

structure ParsedEdge where
  source : String
  target : String
deriving DecidableEq, Repr

structure ParsedSource where
  tasks : List ParsedTask
  edges : List ParsedEdge
deriving DecidableEq, Repr

namespace ParsedSource

/-- Names of the tasks that feed a task, in the order of the edges. -/
def sourcesOf (p : ParsedSource) (name : String) : List String :=
  (p.edges.filter fun e => e.target = name).map ParsedEdge.source

end ParsedSource

namespace Source

def declares (tasks : List ParsedTask) (name : String) : Bool := tasks.any fun t => t.name = name

/-- The task that a statement declares behind the tasks declared so far. -/
def declare (cs : List Char) (tasks : List ParsedTask) (name : String)
    (attributes : List (String × String)) (left : Nat) : Except SourceError ParsedTask :=
  let place := locate cs left
  if declares tasks name then .error ⟨.declaredTwice name, some place⟩
  else match attributes.lookup "type" with
    | none => .error ⟨.untyped name, some place⟩
    | some type => match TaskKind.ofText? type with
      | none => .error ⟨.unknownKind name type, some place⟩
      | some kind =>
        let others := attributes.eraseP fun a => a.1 = "type"
        .ok {
          id := "node_" ++ toString (tasks.length + 1), name, kind
          attributes := Dict.ofList (others.map fun (key, text) => (key, FieldText.verbatim text))
          line := place.line }

/-- The tasks of a list of statements behind those declared so far. -/
def declareAll (cs : List Char) : List Statement → List ParsedTask →
    Except SourceError (List ParsedTask)
  | [], tasks => .ok tasks
  | .chain .. :: rest, tasks => declareAll cs rest tasks
  | .task name attributes left :: rest, tasks =>
    match declare cs tasks name attributes left with
    | .error error => .error error
    | .ok task => declareAll cs rest (tasks ++ [task])

/-- The consecutive pairs of a chain. -/
def consecutive : List String → List ParsedEdge
  | a :: b :: rest => ⟨a, b⟩ :: consecutive (b :: rest)
  | _ => []

/-- The edges of all chains, with the characters left where each chain begins. -/
def arrows : List Statement → List (ParsedEdge × Nat)
  | [] => []
  | .task .. :: rest => arrows rest
  | .chain names left :: rest => (consecutive names).map (fun e => (e, left)) ++ arrows rest

/-- The edges behind those collected so far; both ends have to be declared. -/
def joinAll (cs : List Char) (tasks : List ParsedTask) : List (ParsedEdge × Nat) →
    List ParsedEdge → Except SourceError (List ParsedEdge)
  | [], edges => .ok edges
  | (edge, left) :: rest, edges =>
    match [edge.source, edge.target].find? fun name => !declares tasks name with
    | some name => .error ⟨.undeclared name, some (locate cs left)⟩
    | none => joinAll cs tasks rest (if edge ∈ edges then edges else edges ++ [edge])

def parse (text : String) : Except SourceError ParsedSource :=
  let cs := text.toList
  match read cs with
  | .error error => .error error
  | .ok statements =>
    match declareAll cs statements [] with
    | .error error => .error error
    | .ok tasks =>
      match joinAll cs tasks (arrows statements) [] with
      | .error error => .error error
      | .ok edges => .ok ⟨tasks, edges⟩

end Source
end JobPipeline
