import JobPipeline.Proofs.Simulation.Steps

/-
The life of a task under whatever is sent to it.

What one event can do to a task is said once (`Sent`): most leave it where it stands, and
only a few move it on, each from the states that take it.  The result and the last request
follow the state.  No event but a reset leads on from a settled state, so between two
resets a task settles at most once.  The errors of the fields are found anew only where the
fields are written; they stay right because nothing else touches the kind or the fields.
-/
namespace JobPipeline

/-- The states in which an event has its place. -/
def NodeState.accepts (s : NodeState) : NodeEvent → Bool
  | .prepare => s = .idle
  | .run _ _ => s = .pendingRun
  | .execute | .skip => s = .pendingSideEffect
  | .settle _ => s = .running ∨ s = .executingSideEffect
  | _ => true

/-- The task has been asked to run, since its last reset. -/
def NodeState.isAsked : NodeState → Bool
  | .idle | .pendingRun => false
  | _ => true

theorem NodeState.isSettled_iff {s : NodeState} : s.isSettled = true ↔ s = .success ∨ s = .failed := by
  cases s <;> decide

theorem NodeState.isAsked_iff {s : NodeState} : s.isAsked = true ↔ s ≠ .idle ∧ s ≠ .pendingRun := by
  cases s <;> decide

/-- An event of the course of evaluation, as against an edit or a reset. -/
def NodeEvent.isCourse : NodeEvent → Bool
  | .prepare | .run _ _ | .settle _ | .execute | .skip => true
  | _ => false

/-- An event that writes the fields. -/
def NodeEvent.writes : NodeEvent → Bool
  | .setFields _ | .resetFields _ => true
  | _ => false

def NodeEffect.isSettled : NodeEffect → Bool
  | .settled _ => true
  | _ => false

namespace Node

variable {n : Node} {event : NodeEvent}

/-! ## One event -/

theorem send_of_refused (h : n.state.accepts event = false) : n.send event = (n, none) := by
  cases event with
  | execute => exact execute_eq_of_ne (of_decide_eq_false h)
  | skip => exact skip_eq_of_ne (of_decide_eq_false h)
  | prepare | run | settle =>
    show n.advance _ = _
    rw [advance.eq_def]
    cases hstate : n.state <;> rw [hstate] at h <;> first | rfl | cases h
  | _ => cases h

/-- A task that has been run from where it can be. -/
def asked (n : Node) (request : Request) : Node :=
  { n with
    state := if n.kind.hasSideEffect then .pendingSideEffect else .running
    lastRequest := some request }

theorem run_eq (h : n.state = .pendingRun) (inputs : List Json) (vars : Vars) :
    n.send (.run inputs vars) =
      (n.asked (n.request inputs vars), some (if n.kind.hasSideEffect then .prompt (n.request inputs vars)
        else .evaluate (n.request inputs vars))) := by
  show n.advance _ = _
  rw [advance.eq_def, h, asked]
  dsimp only
  split <;> rfl

/-- How an event of the course moves a task on. -/
inductive Moved (n : Node) : Node × Option NodeEffect → Prop
  | prepared (hstate : n.state = .idle) : Moved n (n.prepared, none)
  | asked (hstate : n.state = .pendingRun) (request : Request) {effect : NodeEffect}
      (heffect : effect.isSettled = false) : Moved n (n.asked request, some effect)
  | executing (hstate : n.state = .pendingSideEffect) :
      Moved n (n.executing, n.lastRequest.map .evaluate)
  | answered (hstate : n.state = .pendingSideEffect ∨ n.state = .running ∨ n.state = .executingSideEffect)
      (response : Response) : Moved n (n.answered response, some (.settled (n.outcome response)))

/-- What an event can make of a task, short of a reset. -/
inductive Sent (n : Node) : Node × Option NodeEffect → Prop
  | stood {m : Node} (hstate : m.state = n.state) (hrequest : m.lastRequest = n.lastRequest)
      (hresult : m.runResult = n.runResult ∨ m.runResult = none) : Sent n (m, none)
  | moved {p : Node × Option NodeEffect} (h : Moved n p) : Sent n p

theorem moved_of_accepts (h : n.state.accepts event = true) (hcourse : event.isCourse = true) :
    Moved n (n.send event) := by
  cases event with
  | prepare =>
    have hstate : n.state = .idle := of_decide_eq_true h
    rw [prepare_eq_of_idle hstate]
    exact .prepared hstate
  | run inputs vars =>
    have hstate : n.state = .pendingRun := of_decide_eq_true h
    rw [run_eq hstate]
    refine .asked hstate _ ?_
    split <;> rfl
  | settle response =>
    have hstate : n.state = .running ∨ n.state = .executingSideEffect := of_decide_eq_true h
    rw [settle_eq hstate]
    exact .answered (.inr hstate) response
  | execute =>
    have hstate : n.state = .pendingSideEffect := of_decide_eq_true h
    rw [execute_eq hstate]
    exact .executing hstate
  | skip =>
    have hstate : n.state = .pendingSideEffect := of_decide_eq_true h
    rw [skip_eq hstate]
    exact .answered (.inl hstate) n.skipResponse
  | _ => cases hcourse

theorem sent_of_edit (h : event.isCourse = false) (hreset : event ≠ .reset) (n : Node) :
    Sent n (n.send event) := by
  cases event with
  | setFields | resetFields | setMock | removeOutgoing | renameReference => exact .stood rfl rfl (.inl rfl)
  | setName => exact .stood rfl rfl (.inr rfl)
  | addIncoming name | removeIncoming name | addOutgoing name =>
    rw [send]
    split
    all_goals first | exact .stood rfl rfl (.inl rfl) | exact .stood rfl rfl (.inr rfl)
  | reset => exact absurd rfl hreset
  | _ => cases h

theorem sent_send (hreset : event ≠ .reset) (n : Node) : Sent n (n.send event) := by
  cases hcourse : event.isCourse with
  | false => exact sent_of_edit hcourse hreset n
  | true =>
    cases haccepts : n.state.accepts event with
    | true => exact .moved (moved_of_accepts haccepts hcourse)
    | false =>
      rw [send_of_refused haccepts]
      exact .stood rfl rfl (.inl rfl)

theorem Moved.state_ne {p : Node × Option NodeEffect} (h : Moved n p) : p.1.state ≠ n.state := by
  cases h with
  | prepared hstate =>
    rw [hstate]
    exact NodeState.noConfusion
  | asked hstate =>
    rw [hstate, Node.asked]
    dsimp only
    split <;> exact NodeState.noConfusion
  | executing hstate =>
    rw [hstate]
    exact NodeState.noConfusion
  | answered hstate response =>
    rw [Node.answered]
    rcases hstate with hstate | hstate | hstate <;> rw [hstate] <;> dsimp only <;> split <;> decide

/-- An event of the course is refused, or it moves the task on. -/
theorem state_send_ne_iff (hcourse : event.isCourse = true) :
    (n.send event).1.state ≠ n.state ↔ n.state.accepts event = true := by
  constructor
  · intro hne
    rw [← Bool.not_eq_false]
    intro hrefused
    rw [send_of_refused hrefused] at hne
    exact hne rfl
  · intro haccepts
    exact (moved_of_accepts haccepts hcourse).state_ne

/-! ## What follows the state -/

structure OnCourse (n : Node) : Prop where
  result : n.runResult.isSome = true → n.state.isSettled = true
  request : n.lastRequest.isSome = n.state.isAsked

theorem OnCourse.of_none (hresult : n.runResult = none) (hrequest : n.lastRequest.isSome = n.state.isAsked) :
    n.OnCourse where
  result h := by
    rw [hresult] at h
    cases h
  request := hrequest

theorem onCourse_fresh (id name : String) (kind : TaskKind) (position : Position) :
    (fresh id name kind position).OnCourse := .of_none rfl rfl

theorem onCourse_reset (n : Node) : (n.send .reset).1.OnCourse := .of_none rfl rfl

theorem OnCourse.runResult_eq_none (h : n.OnCourse) (hstate : n.state.isSettled = false) :
    n.runResult = none := by
  rw [← Option.not_isSome_iff_eq_none]
  intro hresult
  rw [h.result hresult] at hstate
  cases hstate

theorem Moved.onCourse {p : Node × Option NodeEffect} (h : Moved n p) (hn : n.OnCourse) : p.1.OnCourse := by
  have hrequest := hn.request
  cases h with
  | prepared hstate =>
    rw [hstate] at hrequest
    have hresult := hn.runResult_eq_none (by rw [hstate]; rfl)
    refine .of_none ?_ ?_
    · rw [Node.prepared, if_pos hstate, hresult]
    · rw [Node.prepared]
      dsimp only
      rw [if_pos hstate]
      exact hrequest
  | asked hstate request =>
    refine .of_none (hn.runResult_eq_none (by rw [hstate]; rfl)) ?_
    rw [Node.asked]
    dsimp only
    split <;> rfl
  | executing hstate =>
    rw [hstate] at hrequest
    exact .of_none (hn.runResult_eq_none (by rw [hstate]; rfl)) hrequest
  | answered hstate response =>
    have hasked : n.state.isAsked = true := by
      rcases hstate with hstate | hstate | hstate <;> rw [hstate] <;> rfl
    rw [hasked] at hrequest
    rw [Node.answered]
    constructor
    · intro _
      dsimp only
      split <;> rfl
    · dsimp only
      rw [hrequest]
      split <;> rfl

theorem Sent.onCourse {p : Node × Option NodeEffect} (h : Sent n p) (hn : n.OnCourse) : p.1.OnCourse := by
  cases h with
  | stood hstate hrequest hresult =>
    constructor
    · intro hsome
      rw [hstate]
      rcases hresult with hresult | hresult
      · exact hn.result (hresult ▸ hsome)
      · rw [hresult] at hsome
        cases hsome
    · rw [hstate, hrequest]
      exact hn.request
  | moved h => exact h.onCourse hn

/-! ## How often a task settles -/

/-- How often a task can settle before it is reset. -/
def unsettled (n : Node) : Nat := if n.state.isSettled then 0 else 1

theorem unsettled_le (n : Node) : n.unsettled ≤ 1 := by
  rw [unsettled]
  split <;> decide

theorem Moved.unsettled {p : Node × Option NodeEffect} (h : Moved n p) : n.unsettled = 1 := by
  refine if_neg ?_
  cases h with
  | prepared hstate | asked hstate | executing hstate =>
    rw [hstate]
    exact Bool.noConfusion
  | answered hstate =>
    rcases hstate with hstate | hstate | hstate <;> rw [hstate] <;> exact Bool.noConfusion

/-- A move settles the task, which leaves nothing to settle, or it does not. -/
theorem Moved.countP_add_unsettled {p : Node × Option NodeEffect} (h : Moved n p) :
    p.2.toList.countP NodeEffect.isSettled + p.1.unsettled ≤ 1 := by
  cases h with
  | prepared => exact unsettled_le n.prepared
  | asked _ request heffect =>
    rw [Option.toList_some, List.countP_singleton, heffect, if_neg Bool.false_ne_true, Nat.zero_add]
    exact unsettled_le (n.asked request)
  | executing =>
    cases n.lastRequest with
    | none => exact unsettled_le n.executing
    | some request => exact unsettled_le n.executing
  | answered hstate response =>
    have hsettled : (n.answered response).unsettled = 0 := by
      refine if_pos ?_
      rw [Node.answered]
      dsimp only
      split <;> rfl
    rw [hsettled]
    exact Nat.le_refl 1

theorem Sent.countP_add_unsettled {p : Node × Option NodeEffect} (h : Sent n p) :
    p.2.toList.countP NodeEffect.isSettled + p.1.unsettled ≤ n.unsettled := by
  cases h with
  | stood hstate =>
    rw [Node.unsettled, hstate]
    exact Nat.le_of_eq (Nat.zero_add _)
  | moved h =>
    rw [h.unsettled]
    exact h.countP_add_unsettled

/-! ## What the errors follow -/

theorem face_advance (n : Node) (event : NodeEvent) : (n.advance event).1.face = n.face := by
  rw [advance.eq_def]
  split
  · rfl
  · dsimp only
    split <;> rfl
  · rfl
  · rw [settleWith_eq]
    rfl
  · rw [settleWith_eq]
    rfl
  · rw [settleWith_eq]
    rfl
  · rfl

theorem fieldErrors_of_face {m : Node} (h : m.face = n.face) : m.fieldErrors = n.fieldErrors := by
  have hkind : m.kind = n.kind := congrArg Face.kind h
  have hfields : m.fields = n.fields := congrArg Face.fields h
  rw [fieldErrors, fieldErrors, hkind, hfields]

theorem fieldErrors_send (h : event.writes = false) (n : Node) :
    (n.send event).1.fieldErrors = n.fieldErrors := by
  cases event with
  | setFields | resetFields => cases h
  | setMock | setName | removeOutgoing | renameReference | reset => rfl
  | addIncoming name | removeIncoming name | addOutgoing name =>
    rw [send]
    split <;> rfl
  | prepare | run | settle | execute | skip => exact fieldErrors_of_face (face_advance n _)

/-! ## The life of a task -/

/-- What can be done to a task: it is sent an event, or its kind is replaced. -/
inductive Change where
  | send (event : NodeEvent)
  | replaceKind (kind : TaskKind)
deriving DecidableEq

def Change.writes : Change → Bool
  | .send event => event.writes
  | .replaceKind _ => true

def change (n : Node) : Change → Node × Option NodeEffect
  | .send event => n.send event
  | .replaceKind kind => (n.replaceKind kind, none)

/-- A task after a number of changes, and the effects on the way. -/
def run (n : Node) : List Change → Node × List NodeEffect
  | [] => (n, [])
  | change :: changes =>
    let (n, effect) := n.change change
    let (n, effects) := n.run changes
    (n, effect.toList ++ effects)

/-- The errors that are kept with a task: they are found again only when the fields are written. -/
def errorsAfter (n : Node) (errors : List FieldError) : List Change → List FieldError
  | [] => errors
  | change :: changes =>
    let m := (n.change change).1
    m.errorsAfter (if change.writes then m.fieldErrors else errors) changes

theorem sent_change {change : Change} (h : change ≠ .send .reset) (n : Node) : Sent n (n.change change) := by
  cases change with
  | replaceKind kind => exact .stood rfl rfl (.inl rfl)
  | send event => exact sent_send (fun hreset => h (congrArg Change.send hreset)) n

theorem OnCourse.change (hn : n.OnCourse) (change : Change) : (n.change change).1.OnCourse := by
  by_cases hreset : change = .send .reset
  · rw [hreset]
    exact onCourse_reset n
  · exact (sent_change hreset n).onCourse hn

theorem OnCourse.run (hn : n.OnCourse) (changes : List Change) : (n.run changes).1.OnCourse := by
  induction changes generalizing n with
  | nil => exact hn
  | cons change changes ih => exact ih (hn.change change)

theorem countP_run_add_unsettled {changes : List Change} (h : .send .reset ∉ changes) (n : Node) :
    (n.run changes).2.countP NodeEffect.isSettled + (n.run changes).1.unsettled ≤ n.unsettled := by
  induction changes generalizing n with
  | nil => exact Nat.le_of_eq (Nat.zero_add _)
  | cons change changes ih =>
    obtain ⟨hne, hrest⟩ := List.ne_and_not_mem_of_not_mem_cons h
    have hfirst := (sent_change (Ne.symm hne) n).countP_add_unsettled
    have hlater := ih hrest (n.change change).1
    simp only [run, List.countP_append]
    omega

theorem fieldErrors_change {change : Change} (h : change.writes = false) (n : Node) :
    (n.change change).1.fieldErrors = n.fieldErrors := by
  cases change with
  | send event => exact fieldErrors_send h n
  | replaceKind kind => cases h

theorem errorsAfter_eq (changes : List Change) (n : Node) :
    n.errorsAfter n.fieldErrors changes = (n.run changes).1.fieldErrors := by
  induction changes generalizing n with
  | nil => rfl
  | cons change changes ih =>
    have hkept : (if change.writes then (n.change change).1.fieldErrors else n.fieldErrors) =
        (n.change change).1.fieldErrors := by
      cases hwrites : change.writes with
      | true => rfl
      | false => exact (fieldErrors_change hwrites n).symm
    rw [errorsAfter, hkept, ih]
    rfl

/-- Of a task to which anything is done in any order: it has a result only where it has settled, and
a request exactly where it has been asked to run; so the request is there when a side
effect is executed.  The errors kept with it are those of its fields.  Until it is reset it settles
at most once more.  What its state does not take leaves it as it is, and an event of the course moves
it on where it is taken. -/
theorem course_run_fresh (id name : String) (kind : TaskKind) (position : Position) (changes : List Change) :
    let new := fresh id name kind position
    let n := (new.run changes).1
    (n.runResult.isSome = true → n.state = .success ∨ n.state = .failed) ∧
      (n.lastRequest.isSome = true ↔ n.state ≠ .idle ∧ n.state ≠ .pendingRun) ∧
      (n.state = .pendingSideEffect →
        ∃ request, n.lastRequest = some request ∧ (n.send .execute).2 = some (.evaluate request)) ∧
      new.errorsAfter new.fieldErrors changes = n.kind.fieldErrors n.fields ∧
      (∀ stretch : List Change, .send .reset ∉ stretch →
        (n.run stretch).2.countP NodeEffect.isSettled ≤ 1) ∧
      (∀ event, n.state.accepts event = false → n.send event = (n, none)) ∧
      ∀ event, event.isCourse = true →
        ((n.send event).1.state ≠ n.state ↔ n.state.accepts event = true) := by
  intro new n
  have hcourse : n.OnCourse := (onCourse_fresh id name kind position).run changes
  have hrequest := hcourse.request
  refine ⟨fun hresult => NodeState.isSettled_iff.1 (hcourse.result hresult), ?_, fun hpending => ?_,
    errorsAfter_eq changes new, fun stretch hstretch => ?_, fun event => send_of_refused,
    fun event => state_send_ne_iff⟩
  · rw [hrequest]
    exact NodeState.isAsked_iff
  · rw [hpending] at hrequest
    obtain ⟨request, hsome⟩ := Option.isSome_iff_exists.1 hrequest
    refine ⟨request, hsome, ?_⟩
    rw [execute_eq hpending, hsome]
    rfl
  · have hcount := countP_run_add_unsettled hstretch n
    have hle := unsettled_le n
    omega

/-- A side effect is executed after the kind of its task was replaced: it is the request that was
shown, and what is answered after the first answer comes too late. -/
theorem course_run_fresh_fetch :
    let asked : List Change := [.send .prepare, .send (.run [] Dict.empty), .replaceKind .jsonParse]
    let answers : List Change := [.send .execute, .send (.settle (.ofValue .null)),
      .send (.settle (.ofError "late"))]
    let new := fresh "node_1" "fetch" .http .origin
    let n := (new.run asked).1
    let m := (new.run (asked ++ answers)).1
    (∃ request, n.lastRequest = some request ∧ (n.send .execute).2 = some (.evaluate request)) ∧
      new.errorsAfter new.fieldErrors asked = TaskKind.jsonParse.fieldErrors TaskKind.jsonParse.defaults ∧
      (n.run answers).2.countP NodeEffect.isSettled ≤ 1 ∧
      m.runResult.isSome = true ∧ (m.state = .success ∨ m.state = .failed) ∧
      m.send (.settle (.ofError "late")) = (m, none) ∧ (n.send .execute).1.state ≠ n.state := by
  intro asked answers new n m
  obtain ⟨-, -, hexecute, herrors, hcount, -, hmoves⟩ := course_run_fresh "node_1" "fetch" .http .origin asked
  obtain ⟨hresult, -, -, -, -, hrefused, -⟩ :=
    course_run_fresh "node_1" "fetch" .http .origin (asked ++ answers)
  have hpending : n.state = .pendingSideEffect := by decide +kernel
  have hsome : m.runResult.isSome = true := by decide +kernel
  exact ⟨hexecute hpending, herrors, hcount answers (by decide +kernel), hsome, hresult hsome,
    hrefused _ (by decide +kernel), (hmoves .execute rfl).2 (by decide +kernel)⟩

end Node
end JobPipeline
