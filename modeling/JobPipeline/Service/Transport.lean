import JobPipeline.Service.Reply
import JobPipeline.Simulation.Basic
import JobPipeline.Url.Basic

/-
The services of a simulation, reached at their addresses.

An address is a text.  It is read as a URL before anything is sent, and a fault
names the URL in its normal form.
-/
namespace JobPipeline

/-- Sends a body to a URL.  A URL that is not reached gives no reply. -/
abbrev Transport := Url → (body : Json) → Option Reply

/-- A service can be asked at this URL: it is asked over HTTP, the name of its host
has no quotes and no braces, and the URL is short enough to be sent. -/
def Url.isAskable (url : Url) : Bool :=
  ["http", "https"].contains (String.ofList url.scheme) &&
    (match url.authority with
      | some a => a.host.text.all fun c => !"\"\x60\x7b\x7d".toList.contains c
      | none => false) &&
    url.text.length ≤ 65534

namespace Transport

def none : Transport := fun _ _ => Option.none

/-- The reply of an address, or why there is none. -/
def ask (t : Transport) (address : String) (body : Json) : Except JobError Reply :=
  match Url.ofText? address with
  | Option.none => .error (.collaborator .noUrl)
  | some url =>
    if url.isAskable then
      match t url body with
      | some reply => .ok reply
      | Option.none => .error (.collaborator (.unreachable url.text))
    else .error (.collaborator (.unusable url.text))

def plan (t : Transport) (a : ServiceAddress) (source : String) : Except JobError Plan :=
  (t.ask a.graphUrl (planQuestion source)).bind Reply.plan

def evaluate (t : Transport) (a : ServiceAddress) (request : Request) : Except JobError Response :=
  (t.ask a.taskUrl request.toJson).bind Reply.response

/-- The services behind a transport.  Plans are made by the program itself
unless the plan service is asked for. -/
def services (t : Transport) (a : ServiceAddress) (remotePlan : Bool) : Services Unit where
  plan := if remotePlan then t.plan a else Services.localPlan
  evaluate request state := (t.evaluate a request, state)

end Transport
end JobPipeline
