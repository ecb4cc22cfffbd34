import JobPipeline.Proofs.Json.Reading
import JobPipeline.Proofs.Simulation.References
import JobPipeline.Proofs.Simulation.Steps

/-
What an executed side effect gives when it is skipped the next time.

The value of a real answer is kept as the text of the mock: a string as it is, any other
value on one line.  A skip reads the text as JSON, and takes it as a string where it is not
JSON.  So a string comes back unless it is blank or reads as JSON itself, and any other
value comes back unless it is nested deeper than the reader goes.
-/
namespace JobPipeline

namespace Json

/-- A value that comes back from the mock that keeps it. -/
def Replayable : Json → Prop
  | .string s => Text.blank s = false ∧ valueOf? s = none
  | json => json.nesting ≤ mostDepth

instance : DecidablePred Replayable
  | .string s => inferInstanceAs (Decidable (Text.blank s = false ∧ valueOf? s = none))
  | .null | .bool _ | .number _ | .array _ | .object _ => inferInstanceAs (Decidable (_ ≤ mostDepth))

theorem replayable_iff_of_ne_string {json : Json} (h : ∀ s, json ≠ .string s) :
    json.Replayable ↔ json.nesting ≤ mostDepth := by
  cases json with
  | string s => exact absurd rfl (h s)
  | _ => rfl

end Json

namespace Mock

theorem ofValue_of_ne_string {json : Json} (h : ∀ s, json ≠ .string s) :
    ofValue json = ofPayload json.compact := by
  cases json with
  | string s => exact absurd rfl (h s)
  | _ => rfl

theorem value?_ofPayload_of_valueOf? {payload : String} {json : Json} (h : Json.valueOf? payload = some json) :
    (ofPayload payload).value? = some json := by
  have hblank : Text.blank payload = false := by
    rw [Bool.eq_false_iff]
    intro hblank
    rw [Json.valueOf?_of_blank hblank] at h
    cases h
  simp [value?, ofPayload, hblank, h]

/-- A text that is no JSON is no value but a string. -/
theorem eq_string_of_value?_ofPayload {payload : String} {json : Json} (h : Json.valueOf? payload = none)
    (hvalue : (ofPayload payload).value? = some json) :
    Text.blank payload = false ∧ json = .string payload := by
  rw [value?, ofPayload] at hvalue
  cases hblank : Text.blank payload with
  | true => simp [hblank] at hvalue
  | false =>
    rw [h] at hvalue
    exact ⟨rfl, (Option.some.inj (by simpa [hblank] using hvalue)).symm⟩

theorem value?_ofPayload_string_iff (s : String) :
    (ofPayload s).value? = some (.string s) ↔ (Json.string s).Replayable := by
  rw [Json.Replayable]
  cases hvalue : Json.valueOf? s with
  | none =>
    constructor
    · intro h
      exact ⟨(eq_string_of_value?_ofPayload hvalue h).1, rfl⟩
    · rintro ⟨hblank, -⟩
      simp [value?, ofPayload, hblank, hvalue]
  | some json =>
    rw [value?_ofPayload_of_valueOf? hvalue, ← hvalue]
    exact iff_of_false (Json.valueOf?_ne_string s) fun h => by simp [hvalue] at h

/-- The mock that remembers a value gives it back exactly if the value is replayable. -/
theorem value?_ofValue_iff {json : Json} (hcanonical : json.canonical = json)
    (hnumbers : ∀ n ∈ json.numbers, n.Rereads) :
    (ofValue json).value? = some json ↔ json.Replayable := by
  by_cases hstring : ∃ s, json = .string s
  · obtain ⟨s, rfl⟩ := hstring
    exact value?_ofPayload_string_iff s
  · have hne : ∀ s, json ≠ .string s := fun s heq => hstring ⟨s, heq⟩
    have hread := Json.valueOf?_compact hnumbers
    rw [hcanonical] at hread
    rw [ofValue_of_ne_string hne, Json.replayable_iff_of_ne_string hne]
    by_cases hdepth : json.nesting ≤ Json.mostDepth
    · rw [if_pos hdepth] at hread
      exact iff_of_true (value?_ofPayload_of_valueOf? hread) hdepth
    · rw [if_neg hdepth] at hread
      exact iff_of_false (fun h => hne _ (eq_string_of_value?_ofPayload hread h).2) hdepth

end Mock

/-- An event that leaves the mock of a task alone. -/
def NodeEvent.KeepsMock : NodeEvent → Prop
  | .setMock _ => False
  | .settle response => response.error.isSome = true
  | _ => True

namespace Node

/-- A task after a number of events. -/
def after (n : Node) (events : List NodeEvent) : Node :=
  events.foldl (fun n event => (n.send event).1) n

theorem mock_advance {event : NodeEvent} (h : event.KeepsMock) (n : Node) :
    (n.advance event).1.mock = n.mock := by
  rw [advance.eq_def]
  split
  · rfl
  · dsimp only
    split <;> rfl
  · rfl
  · rw [settleWith_eq]
  · rw [settleWith_eq]
  · next response _ =>
    have hfailed : response.error.isNone = false := by
      rw [Option.isNone_eq_false_iff]
      exact h
    rw [settleWith_eq]
    simp only [hfailed, Bool.false_eq_true, if_false]
  · rfl

theorem mock_send {event : NodeEvent} (h : event.KeepsMock) (n : Node) : (n.send event).1.mock = n.mock := by
  cases event with
  | setMock mock => cases h
  | addIncoming name | addOutgoing name | removeIncoming name =>
    rw [send]
    split <;> rfl
  | setFields | resetFields | setName | removeOutgoing | renameReference | reset => rfl
  | _ => exact mock_advance h n

theorem mock_after {events : List NodeEvent} (h : ∀ event ∈ events, event.KeepsMock) (n : Node) :
    (n.after events).mock = n.mock := by
  induction events generalizing n with
  | nil => rfl
  | cons event events ih =>
    rw [List.forall_mem_cons] at h
    rw [after, List.foldl_cons, ← after, ih h.2, mock_send h.1]

/-- A skip succeeds with a value exactly if the mock has it. -/
theorem outcome_skipResponse_iff (n : Node) (json : Json) :
    (n.outcome n.skipResponse).outcome = .ok json ↔ n.mock.value? = some json := by
  rw [skipResponse]
  cases n.mock.value? with
  | none => simp [outcome, Response.ofError, RunResult.outcome]
  | some value => simp [outcome, Response.ofValue, RunResult.outcome]

/-- What an executed side effect answered is the value of the mock from then on, and what a
later skip settles with, exactly if it is replayable. -/
theorem skip_iff_replayable {n : Node} {events : List NodeEvent}
    (hstate : (n.after events).state = .executingSideEffect) (response : Response) (hok : response.error = none)
    (hcanonical : response.value.canonical = response.value)
    (hnumbers : ∀ x ∈ response.value.numbers, x.Rereads) :
    let settled := ((n.after events).send (.settle response)).1
    (settled.mock.value? = some response.value ↔ response.value.Replayable) ∧
      ∀ later, (∀ event ∈ later, event.KeepsMock) → (settled.after later).state = .pendingSideEffect →
        ∃ result, ((settled.after later).send .skip).2 = some (.settled result) ∧
          ((settled.after later).send .skip).1.runResult = some result ∧
          (result.outcome = .ok response.value ↔ response.value.Replayable) := by
  intro settled
  have hmock : settled.mock = Mock.ofValue response.value := by
    show ((n.after events).send (.settle response)).1.mock = _
    rw [settle_eq (.inr hstate), answered]
    simp only [hstate, hok, Option.isNone_none, and_self, if_true]
  have hvalue := Mock.value?_ofValue_iff hcanonical hnumbers
  refine ⟨hmock ▸ hvalue, fun later hlater hpending => ?_⟩
  rw [skip_eq hpending]
  refine ⟨_, rfl, rfl, ?_⟩
  rw [outcome_skipResponse_iff, mock_after hlater, hmock, hvalue]

/-- A request that is being executed. -/
def fetching : Node := (fresh "node_1" "fetch" .http .origin).after [.prepare, .run [] Dict.empty, .execute]

/-- It is answered and run anew, and then skipped. -/
def refetched (value : Json) : Node × Option NodeEffect :=
  (((fetching.send (.settle (.ofValue value))).1).after [.reset, .prepare, .run [] Dict.empty]).send .skip

/-- An object comes back; a string that reads as a number does not. -/
theorem skip_iff_replayable_fetching :
    fetching.state = .executingSideEffect ∧
      (∃ result, (refetched (.object [("page", .number (.whole 7))])).2 = some (.settled result) ∧
        result.outcome = .ok (.object [("page", .number (.whole 7))])) ∧
      ∃ result, (refetched (.string "5")).2 = some (.settled result) ∧ result.outcome ≠ .ok (.string "5") := by
  have hexecuting : fetching.state = .executingSideEffect := by decide +kernel
  have hkept : ∀ event ∈ [NodeEvent.reset, .prepare, .run [] Dict.empty], event.KeepsMock := by
    simp [NodeEvent.KeepsMock]
  refine ⟨hexecuting, ?_, ?_⟩
  · obtain ⟨-, hskip⟩ := skip_iff_replayable hexecuting (.ofValue (.object [("page", .number (.whole 7))])) rfl
      (by decide +kernel) (by decide +kernel)
    obtain ⟨result, hresult, -, houtcome⟩ := hskip _ hkept (by decide +kernel)
    exact ⟨result, hresult, houtcome.2 (by decide +kernel)⟩
  · obtain ⟨-, hskip⟩ := skip_iff_replayable hexecuting (.ofValue (.string "5")) rfl (by decide +kernel)
      (by decide +kernel)
    obtain ⟨result, hresult, -, houtcome⟩ := hskip _ hkept (by decide +kernel)
    exact ⟨result, hresult, fun h => absurd (houtcome.1 h) (by decide +kernel)⟩

end Node
end JobPipeline
