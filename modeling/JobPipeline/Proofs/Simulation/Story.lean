import JobPipeline.Proofs.Simulation.Logging

/-
The story that events tell.

A stream of events is told in pieces.  A run begins or is refused, it asks for a side
effect, a task is handed to the evaluator and settles at once, a side effect that has just
been asked for is executed or skipped, and the run is left.  What a stream as a whole says
is read off the pieces: a piece is only ever put behind what is there, so what holds in
front of an event goes on holding there.
-/
namespace JobPipeline

/-! ## Reports -/

namespace Report

/-- The report tells of a task. -/
def isTask (report : Report) : Bool := report.task?.isSome

/-- The task that has settled. -/
def settles? : Report → Option String
  | .taskCompleted task _ | .taskFailed task _ => some task
  | _ => none

end Report

/-- How a result is reported. -/
def RunResult.report (result : RunResult) : Report :=
  match result.error with
  | none => .taskCompleted result.task result.value
  | some error => .taskFailed result.task error

theorem RunResult.report_cases (result : RunResult) :
    result.report = .taskCompleted result.task result.value ∨
      ∃ error, result.report = .taskFailed result.task error := by
  rw [report]
  cases result.error with
  | none => exact .inl rfl
  | some error => exact .inr ⟨error, rfl⟩

@[simp] theorem RunResult.settles?_report (result : RunResult) :
    result.report.settles? = some result.task := by
  rcases result.report_cases with h | ⟨error, h⟩ <;> rw [h] <;> rfl

@[simp] theorem RunResult.isTask_report (result : RunResult) : result.report.isTask = true := by
  rcases result.report_cases with h | ⟨error, h⟩ <;> rw [h] <;> rfl

namespace Event

/-- The run that is entered, with a plan or without one. -/
def entered? (e : Event) : Option String :=
  match e.report with
  | .started _ | .failed _ => some e.run
  | _ => none

/-- The task that is handed to the evaluator. -/
def called? (e : Event) : Option String :=
  match e.report with
  | .taskStarted task => some task
  | _ => none

/-- What a task has settled with. -/
def settlement? (e : Event) : Option Report := if e.report.settles?.isSome then some e.report else none

variable {run : String}

section

variable (name : String) (result : RunResult)

@[simp] theorem entered?_sideEffectPending : (⟨run, .sideEffectPending name⟩ : Event).entered? = none := rfl

@[simp] theorem called?_sideEffectPending : (⟨run, .sideEffectPending name⟩ : Event).called? = none := rfl

@[simp] theorem settlement?_sideEffectPending :
    (⟨run, .sideEffectPending name⟩ : Event).settlement? = none := rfl

@[simp] theorem entered?_taskStarted : (⟨run, .taskStarted name⟩ : Event).entered? = none := rfl

@[simp] theorem called?_taskStarted : (⟨run, .taskStarted name⟩ : Event).called? = some name := rfl

@[simp] theorem settlement?_taskStarted : (⟨run, .taskStarted name⟩ : Event).settlement? = none := rfl

@[simp] theorem entered?_report : (⟨run, result.report⟩ : Event).entered? = none := by
  rcases result.report_cases with h | ⟨error, h⟩ <;> rw [h] <;> rfl

@[simp] theorem called?_report : (⟨run, result.report⟩ : Event).called? = none := by
  rcases result.report_cases with h | ⟨error, h⟩ <;> rw [h] <;> rfl

@[simp] theorem settlement?_report :
    (⟨run, result.report⟩ : Event).settlement? = some result.report := by
  simp [settlement?]

end

/-! ## Streams -/

/-- Each event of a stream is as it should be, seen from what is in front of it. -/
def Each (p : List Event → Event → Prop) (events : List Event) : Prop :=
  ∀ front e, front ++ [e] <+: events → p front e

theorem each_nil (p : List Event → Event → Prop) : Each p [] := by
  intro front e h
  simp at h

theorem Each.concat {p : List Event → Event → Prop} {events : List Event} {e : Event} (h : Each p events)
    (he : p events e) : Each p (events ++ [e]) := by
  intro front other hprefix
  rcases List.prefix_concat_iff.1 hprefix with heq | hprefix
  · obtain ⟨rfl, hsame⟩ := List.append_inj' heq rfl
    cases hsame
    exact he
  · exact h front other hprefix

/-- The stream begins a run and has told of nothing but its tasks since. -/
def Within (run : String) (events : List Event) : Prop :=
  ∃ before tasks between, events = before ++ ⟨run, .started tasks⟩ :: between ∧
    ∀ e ∈ between, e.report.isTask = true ∧ e.run = run

theorem Within.concat {events : List Event} {report : Report} (h : Within run events)
    (hreport : report.isTask = true) : Within run (events ++ [⟨run, report⟩]) := by
  obtain ⟨before, tasks, between, rfl, hbetween⟩ := h
  refine ⟨before, tasks, between ++ [⟨run, report⟩], by simp, fun e he => ?_⟩
  rcases List.mem_append.1 he with he | he
  · exact hbetween e he
  · rw [List.mem_singleton.1 he]
    exact ⟨hreport, rfl⟩

/-- Where no run is entered twice, no task is told of under its name before it begins. -/
theorem Each.ne_run {events : List Event}
    (hwithin : Each (fun front e => e.report.isTask = true → Within e.run front) events)
    (hruns : (events.filterMap entered?).Nodup) :
    Each (fun front e => ∀ run, e.entered? = some run → ∀ other ∈ front, other.report.isTask = true →
      other.run ≠ run) events := by
  rintro front e hfront run hentered other hmem htask rfl
  obtain ⟨before, after, rfl⟩ := List.append_of_mem hmem
  have hother : before ++ [other] <+: events := by
    refine List.IsPrefix.trans ⟨after ++ [e], ?_⟩ hfront
    simp
  -- The run of the other event has begun before it, and the event enters it once more.
  obtain ⟨start, tasks, between, rfl, -⟩ := hwithin before other hother htask
  have hnodup := hruns.sublist (hfront.sublist.filterMap entered?)
  rw [List.filterMap_append, List.filterMap_cons_some hentered, List.filterMap_nil] at hnodup
  refine (List.nodup_append'.1 hnodup).2.2 (List.mem_filterMap.2 ⟨⟨other.run, .started tasks⟩, ?_, rfl⟩)
    (List.mem_singleton_self other.run)
  simp

/-- Each call of the evaluator is followed by what it came to. -/
def Followed (events : List Event) : Prop :=
  ∀ front run task, front ++ [⟨run, .taskStarted task⟩] <+: events →
    ∃ result : RunResult, result.task = task ∧
      front ++ [⟨run, .taskStarted task⟩, ⟨run, result.report⟩] <+: events

theorem Followed.concat {events : List Event} {e : Event} (h : Followed events)
    (he : e.called? = none) : Followed (events ++ [e]) := by
  intro front run task hprefix
  rcases List.prefix_concat_iff.1 hprefix with heq | hprefix
  · obtain ⟨rfl, hsame⟩ := List.append_inj' heq rfl
    cases hsame
    cases he
  · obtain ⟨result, htask, hresult⟩ := h front run task hprefix
    exact ⟨result, htask, hresult.trans (List.prefix_append _ _)⟩

theorem Followed.concat_call {events : List Event} (h : Followed events) (result : RunResult) :
    Followed (events ++ [⟨run, .taskStarted result.task⟩, ⟨run, result.report⟩]) := by
  have hparts : events ++ [⟨run, .taskStarted result.task⟩, ⟨run, result.report⟩] =
      events ++ [⟨run, .taskStarted result.task⟩] ++ [⟨run, result.report⟩] := by simp
  intro front other task hprefix
  rw [hparts, List.prefix_concat_iff, List.prefix_concat_iff] at hprefix
  rcases hprefix with heq | heq | hprefix
  · obtain ⟨-, hsame⟩ := List.append_inj' heq rfl
    have hcalled : (⟨run, result.report⟩ : Event).called? = none := called?_report result
    rw [← List.head_eq_of_cons_eq hsame] at hcalled
    cases hcalled
  · obtain ⟨rfl, hsame⟩ := List.append_inj' heq rfl
    cases hsame
    exact ⟨result, rfl, List.prefix_rfl⟩
  · obtain ⟨found, htask, hfound⟩ := h front other task hprefix
    exact ⟨found, htask, hfound.trans (List.prefix_append _ _)⟩

end Event

/-! ## The grammar of a stream -/

/-- What has been told, and what has happened meanwhile. -/
structure Tale where
  /-- The run that events of tasks belong to. -/
  open? : Option String
  /-- The runs that were entered, with a plan or without one. -/
  runs : List String
  events : List Event
  /-- The results that were returned. -/
  results : List RunResult
  /-- The requests that the evaluator was asked. -/
  calls : List Request

/-- A tale told in pieces.  A name that is asked for leads to a task by the index of the
graph, and the events behind it carry the name of the task itself. -/
inductive Story (g : TaskGraph) : Tale → Prop
  | silent : Story g ⟨none, [], [], [], []⟩
  | started {t : Tale} (run : String) (tasks : Nat) : Story g t →
      Story g { t with
        open? := some run
        runs := t.runs ++ [run]
        events := t.events ++ [⟨run, .started tasks⟩] }
  | failed {t : Tale} (run error : String) : Story g t →
      Story g { t with
        open? := none
        runs := t.runs ++ [run]
        events := t.events ++ [⟨run, .failed error⟩] }
  | exited {t : Tale} (run : String) : Story g t →
      Story g { t with open? := none, events := t.events ++ [⟨run, .exited⟩] }
  | asked {t : Tale} {run : String} (name : String) : Story g t → t.open? = some run →
      Story g { t with events := t.events ++ [⟨run, .sideEffectPending name⟩] }
  | called {t : Tale} {run name : String} {n : Node} {result : RunResult} {request : Request} :
      Story g t → t.open? = some run → g.named? name = some n → n.name = result.task →
      (n.kind.hasSideEffect = true → [⟨run, .sideEffectPending name⟩] <:+ t.events) →
      request.task = result.task →
      Story g { t with
        events := t.events ++ [⟨run, .taskStarted result.task⟩, ⟨run, result.report⟩]
        results := t.results ++ [result]
        calls := t.calls ++ [request] }
  | skipped {t : Tale} {run name : String} {n : Node} {result : RunResult} :
      Story g t → t.open? = some run → g.named? name = some n → n.name = result.task →
      [⟨run, .sideEffectPending name⟩] <:+ t.events →
      Story g { t with
        events := t.events ++ [⟨run, result.report⟩]
        results := t.results ++ [result] }

/-- The side effect of a task was asked for, and nothing has settled since. -/
def Event.Asked (run task : String) (front : List Event) : Prop :=
  ∃ before between, front = before ++ ⟨run, .sideEffectPending task⟩ :: between ∧
    ∀ e ∈ between, e.report.settles? = none

/-- A task can settle here: a name leads to it, and if it has a side effect, that was just
asked for by the name. -/
def TaskGraph.Settling (g : TaskGraph) (run task : String) (front : List Event) : Prop :=
  ∃ name n, g.named? name = some n ∧ n.name = task ∧
    (n.kind.hasSideEffect = true → Event.Asked run name front)

/-- Where names lead to tasks of these names, a side effect is asked for by its own name. -/
theorem TaskGraph.Settling.asked {g : TaskGraph} {run task : String} {front : List Event} {n : Node}
    (h : g.Settling run task front) (hindexed : g.Indexed) (hn : g.named? task = some n)
    (heffect : n.kind.hasSideEffect = true) : Event.Asked run task front := by
  obtain ⟨name, m, hm, rfl, hasked⟩ := h
  rw [hindexed name m hm] at hn ⊢
  rw [hm] at hn
  cases hn
  exact hasked heffect

namespace Story

open Event

variable {g : TaskGraph} {t : Tale}

/-- Every event of a task belongs to the run that is open where it is told. -/
theorem within (h : Story g t) :
    (∀ run, t.open? = some run → Within run t.events) ∧
      Each (fun front e => e.report.isTask = true → Within e.run front) t.events := by
  induction h with
  | silent => exact ⟨nofun, each_nil _⟩
  | @started t run tasks _ ih =>
    refine ⟨fun _ hrun => ?_, ih.2.concat nofun⟩
    cases hrun
    exact ⟨t.events, tasks, [], rfl, nofun⟩
  | failed run error _ ih => exact ⟨nofun, ih.2.concat nofun⟩
  | exited run _ ih => exact ⟨nofun, ih.2.concat nofun⟩
  | asked name _ hopen ih =>
    refine ⟨fun _ hrun => ?_, ih.2.concat fun _ => ih.1 _ hopen⟩
    cases hopen.symm.trans hrun
    exact (ih.1 _ hopen).concat rfl
  | @called t run _ _ result _ _ hopen _ _ _ _ ih =>
    have hcalled : Within run (t.events ++ [⟨run, .taskStarted result.task⟩]) := (ih.1 _ hopen).concat rfl
    dsimp only
    rw [List.append_cons]
    refine ⟨fun _ hrun => ?_, (ih.2.concat fun _ => ih.1 _ hopen).concat fun _ => hcalled⟩
    cases hopen.symm.trans hrun
    exact hcalled.concat result.isTask_report
  | @skipped _ _ _ _ result _ hopen _ _ _ ih =>
    refine ⟨fun _ hrun => ?_, ih.2.concat fun _ => ih.1 _ hopen⟩
    cases hopen.symm.trans hrun
    exact (ih.1 _ hopen).concat result.isTask_report

/-- Each entry is told of, under the name of its run. -/
theorem entered (h : Story g t) : t.events.filterMap Event.entered? = t.runs := by
  induction h with
  | silent => rfl
  | started run tasks _ ih => simp [ih, entered?]
  | failed run error _ ih => simp [ih, entered?]
  | exited run _ ih => simpa [entered?, List.filterMap_cons] using ih
  | asked name _ _ ih => simpa [List.filterMap_cons] using ih
  | called _ _ _ _ _ _ ih => simpa [List.filterMap_cons] using ih
  | skipped _ _ _ _ _ ih => simpa [List.filterMap_cons] using ih

/-- The evaluator was handed what the events say, and it answered at once. -/
theorem called_eq (h : Story g t) :
    t.events.filterMap Event.called? = t.calls.map Request.task ∧ Followed t.events := by
  induction h with
  | silent => exact ⟨rfl, by intro front run task hprefix; simp at hprefix⟩
  | started run tasks _ ih => exact ⟨by simp [ih.1, called?, List.filterMap_cons], ih.2.concat rfl⟩
  | failed run error _ ih => exact ⟨by simp [ih.1, called?, List.filterMap_cons], ih.2.concat rfl⟩
  | exited run _ ih => exact ⟨by simp [ih.1, called?, List.filterMap_cons], ih.2.concat rfl⟩
  | asked name _ _ ih => exact ⟨by simp [ih.1, List.filterMap_cons], ih.2.concat rfl⟩
  | called _ _ _ _ _ hrequest ih => exact ⟨by simp [ih.1, hrequest], ih.2.concat_call _⟩
  | skipped _ _ _ _ _ ih => exact ⟨by simp [ih.1], ih.2.concat (called?_report _)⟩

/-- The results that were returned are the results that were told of, in that order. -/
theorem settled (h : Story g t) : t.events.filterMap Event.settlement? = t.results.map RunResult.report := by
  induction h with
  | silent => rfl
  | started run tasks _ ih => simp [ih, settlement?, Report.settles?]
  | failed run error _ ih => simp [ih, settlement?, Report.settles?]
  | exited run _ ih => simp [ih, settlement?, Report.settles?]
  | asked name _ _ ih => simp [ih, List.filterMap_cons]
  | called _ _ _ _ _ _ ih => simp [ih, List.filterMap_cons]
  | skipped _ _ _ _ _ ih => simp [ih]

/-- A task settles where a name leads to it; a side effect has just been asked for by that name. -/
theorem settling (h : Story g t) :
    Each (fun front e => ∀ task, e.report.settles? = some task → g.Settling e.run task front) t.events := by
  induction h with
  | silent => exact each_nil _
  | started run tasks _ ih => exact ih.concat nofun
  | failed run error _ ih => exact ih.concat nofun
  | exited run _ ih => exact ih.concat nofun
  | asked name _ _ ih => exact ih.concat nofun
  | @called t run name n result _ _ _ hnamed hname hasked _ ih =>
    dsimp only
    rw [List.append_cons]
    refine (ih.concat fun _ h => by cases h).concat fun task htask => ⟨name, n, hnamed, ?_, fun heffect => ?_⟩
    · rw [result.settles?_report] at htask
      exact hname.trans (Option.some.inj htask)
    · obtain ⟨front, hfront⟩ := hasked heffect
      refine ⟨front, [⟨run, .taskStarted result.task⟩], ?_, by simp [Report.settles?]⟩
      rw [← hfront]
      simp
  | @skipped _ run name n result _ _ hnamed hname hasked ih =>
    refine ih.concat fun task htask => ⟨name, n, hnamed, ?_, fun _ => ?_⟩
    · rw [result.settles?_report] at htask
      exact hname.trans (Option.some.inj htask)
    · obtain ⟨front, hfront⟩ := hasked
      exact ⟨front, [], hfront.symm, nofun⟩

end Story
end JobPipeline
