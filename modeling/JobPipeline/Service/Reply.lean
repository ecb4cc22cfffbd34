import JobPipeline.Plan.Json
import JobPipeline.Service.Address
import JobPipeline.Task.Json

/-
What a service is asked, and what its reply means.

The plan service answers with tasks or with an error, whatever the status of its
reply.  The evaluator answers with a status of success, and its answer may itself
be the failure of the task.
-/
namespace JobPipeline

open Json (needed? string?)

structure Reply where
  status : Nat
  body : String
deriving DecidableEq, Repr

namespace Reply

def isSuccess (r : Reply) : Bool := 200 ≤ r.status && r.status ≤ 299

/-- A reply of no content or of nothing modified has no body. -/
def content (r : Reply) : String := if r.status = 204 ∨ r.status = 304 then "" else r.body

/-- The body as text, without the byte order mark that may stand in front. -/
def text (r : Reply) : String :=
  match r.content.toList with
  | c :: cs => if c.toNat = 0xFEFF then String.ofList cs else r.content
  | [] => ""

def refusal (r : Reply) : JobError := .collaborator (.refused r.status r.text)

/-- The members with a name, if it is not given twice. -/
def only (name : String) (members : List (String × Json)) : List (String × Json) :=
  match members.filter fun m => m.1 = name with
  | [m] => [m]
  | _ => []

/-- The answer of the plan service: a plan, or the text of an error.  Tasks come
before an error. -/
def planAnswer? : Json → Option (Except String Plan)
  | .object members =>
    let tasks? := fun (json : Json) => (Json.asList Instruction.ofJson json).toOption
    match needed? (only "tasks" members) "tasks" tasks? with
    | some tasks => some (.ok ⟨tasks⟩)
    | none => (needed? (only "error" members) "error" string?).map .error
  | _ => none

def plan (r : Reply) : Except JobError Plan :=
  match (Json.read? r.text).bind planAnswer? with
  | some (.ok plan) => .ok plan
  | some (.error message) => .error (.parse ⟨.reported message, none⟩)
  | none => .error (if r.isSuccess then .collaborator .unexpected else r.refusal)

def response (r : Reply) : Except JobError Response :=
  if r.isSuccess then
    match (Json.readWithin? Response.scope r.content).map Response.ofJson with
    | some (.ok response) => .ok response
    | some (.error _) | none => .error (.collaborator .undecodable)
  else .error r.refusal

end Reply

def planQuestion (source : String) : Json := .object [("spec", .string source)]

end JobPipeline
