import JobPipeline.Proofs.Simulation.Story
import JobPipeline.Proofs.Simulation.Waiting
import JobPipeline.Snapshot

/-
What a caller can rely on in the events.

Every move adds one piece to the story, or none.  A decision that is waited for was asked
for by the last event, so executing and skipping are told right behind their question.
-/
namespace JobPipeline

/-- The result that an answer brings. -/
def Answer.result? : Except JobError Answer → Option RunResult
  | .ok (.came (.settled result)) => some result
  | _ => none

namespace Walk

/-- The run that events of tasks belong to. -/
def open? (w : Walk) : Option String :=
  match w.refusal? with
  | none => some w.run
  | some _ => none

theorem open?_of_active {w : Walk} (h : w.refusal? = none) : w.open? = some w.run := by
  rw [open?, h]

end Walk

namespace Simulation

variable {σ : Type} {services : Services σ} {s : Simulation (σ × List Request)} {step : Instruction} {n : Node}
  {job : Job} {runs : List String} {results : List RunResult}

/-- What has been told when these runs have been entered, and these results returned. -/
def tale (s : Simulation (σ × List Request)) (runs : List String) (results : List RunResult) : Tale :=
  ⟨s.walk.open?, runs, s.events, results, s.calls⟩

/-- While a run goes on, what is told does not depend on whether something waits. -/
theorem tale_ready (h : s.walk.refusal? = none) (m : Node) (runs : List String) (results : List RunResult) :
    ((s.put m).setStatus .ready).tale runs results = s.tale runs results := by
  rw [tale, tale, Walk.open?_of_active h]
  rfl

/-- The side effect that is waited for was asked for by the last event, and what it waits
to be executed with is a request of its own task. -/
def Waiting (s : Simulation (σ × List Request)) : Prop :=
  s.walk.status = .awaiting → ∀ step n, s.AtHand step n →
    [⟨s.walk.run, .sideEffectPending step.id⟩] <:+ s.events ∧
      ∃ request, n.lastRequest = some request ∧ request.task = n.name

theorem waiting_of_ne (h : s.walk.status ≠ .awaiting) : s.Waiting := fun hstatus => absurd hstatus h

/-- The events so far tell what was done to a job. -/
structure Told (job : Job) (s : Simulation (σ × List Request)) (runs : List String)
    (results : List RunResult) : Prop where
  form : s.job.graph.form = job.graph.form
  story : Story job.graph (s.tale runs results)
  waiting : s.Waiting

/-- The task at hand is a task of the job. -/
theorem Told.named (h : s.Told job runs results) (hhand : s.AtHand step n) :
    ∃ m, job.graph.named? step.id = some m ∧ m.name = n.name ∧ m.kind = n.kind := by
  obtain ⟨m, hm, hsame⟩ := TaskGraph.named?_of_form h.form hhand.task
  exact ⟨m, hm, Node.name_of_form hsame, Node.kind_of_form hsame⟩

theorem Told.unanswered (h : s.Told job runs results) {answer : Except JobError Answer}
    (hanswer : Answer.result? answer = none) : s.Told job runs (results ++ (Answer.result? answer).toList) := by
  rw [hanswer]
  simpa using h

theorem Told.unentered (h : s.Told job runs results) : s.Told job (runs ++ []) results :=
  (List.append_nil runs).symm ▸ h

/-! ## One piece for each move -/

theorem Told.enter (h : s.Told job runs results) (services : Services σ) (run : String) :
    (s.enter services.logged run).2.Told job (runs ++ [run]) results := by
  have hreset : s.job.graph.resetAll.form = job.graph.form :=
    (TaskGraph.form_resetAll s.job.graph).trans h.form
  cases hplan : services.logged.plan s.job.graph.source with
  | ok plan =>
    rw [enter_ok hplan]
    exact ⟨hreset, h.story.started run plan.tasks.length, waiting_of_ne nofun⟩
  | error error =>
    have hstatus : (s.barred error run).walk.status ≠ .awaiting ∧ (s.barred error run).walk.open? = none := by
      cases error <;> exact ⟨nofun, rfl⟩
    rw [enter_error hplan]
    refine ⟨hreset, ?_, waiting_of_ne hstatus.1⟩
    rw [tale, hstatus.2]
    exact h.story.failed run error.message

theorem Told.exit (h : s.Told job runs results) : s.exit.Told job runs results :=
  ⟨(TaskGraph.form_resetAll s.job.graph).trans h.form, h.story.exited _, waiting_of_ne nofun⟩

/-- A decision is asked for. -/
theorem Told.prompted (h : s.Told job runs results) (hhand : s.AtHand step n) :
    (s.prompted step n).Told job runs results := by
  have hnode : s.job.graph.node? (s.begun step n).id = some n := hhand.node?
  have hopen : s.walk.open? = some s.walk.run := Walk.open?_of_active hhand.active
  refine ⟨(TaskGraph.form_put hnode rfl).trans h.form, ?_, fun _ other m hother => ?_⟩
  · have hstory := h.story.asked step.id hopen
    rw [tale, hopen] at hstory
    exact hstory
  · have hturn : s.walk.current? = some other := hother.turn
    rw [hhand.turn] at hturn
    cases hturn
    have htask : (s.job.graph.put (s.begun step n)).named? step.id = some m := hother.task
    rw [Steady.named?_put (m := s.begun step n) hhand rfl] at htask
    cases htask
    exact ⟨List.suffix_append _ _, s.request step n, rfl, rfl⟩

/-- The task at hand is evaluated, and settles at once under its own name. -/
theorem Told.evaluated (h : s.Told job runs results) (hhand : s.AtHand step n) {m : Node} (hform : m.form = n.form)
    (hasked : n.kind.hasSideEffect = true → [⟨s.walk.run, .sideEffectPending step.id⟩] <:+ s.events)
    {request : Request} (hrequest : request.task = n.name) (services : Services σ) (response : Response) :
    ((((s.put m).setStatus .ready).called services.logged request).settled m response).Told job runs
      (results ++ [m.outcome response]) := by
  obtain ⟨own, hown, hname, hkind⟩ := h.named hhand
  have hnode : s.job.graph.node? (m.answered response).id = some n :=
    (Node.id_of_form hform : m.id = n.id) ▸ hhand.node?
  have hgraph : ((((s.put m).setStatus .ready).called services.logged request).settled m response).job.graph =
      s.job.graph.put (m.answered response) := TaskGraph.put_put rfl
  have htask : (m.outcome response).task = n.name := (m.outcome_task response).trans (Node.name_of_form hform)
  have hevents : ((((s.put m).setStatus .ready).called services.logged request).settled m response).events =
      s.events ++ [⟨s.walk.run, .taskStarted (m.outcome response).task⟩,
        ⟨s.walk.run, (m.outcome response).report⟩] := by
    rw [htask, ← hrequest]
    exact List.append_assoc ..
  refine ⟨?_, ?_, waiting_of_ne nofun⟩
  · rw [hgraph]
    exact (TaskGraph.form_put hnode hform).trans h.form
  · have hstory := h.story.called (Walk.open?_of_active hhand.active) hown (hname.trans htask.symm)
      (fun heffect => hasked (hkind ▸ heffect)) (hrequest.trans htask.symm)
    rw [← tale_ready hhand.active m] at hstory
    rw [tale, hevents]
    exact hstory

/-- A task is skipped right behind the question for its side effect. -/
theorem Told.skipped (h : s.Told job runs results) (hhand : s.AtHand step n)
    (hasked : [⟨s.walk.run, .sideEffectPending step.id⟩] <:+ s.events) (response : Response) :
    ((s.setStatus .ready).settled n response).Told job runs (results ++ [n.outcome response]) := by
  obtain ⟨own, hown, hname, -⟩ := h.named hhand
  have hnode : s.job.graph.node? (n.answered response).id = some n := hhand.node?
  refine ⟨(TaskGraph.form_put hnode rfl).trans h.form, ?_, waiting_of_ne nofun⟩
  have hstory := h.story.skipped (Walk.open?_of_active hhand.active) hown
    (hname.trans (n.outcome_task response).symm) hasked
  rw [← tale_ready hhand.active n] at hstory
  exact hstory

/-- Moving on or back leaves a question behind, and nothing waits any more. -/
theorem Told.stood (h : s.Told job runs results) (hactive : s.walk.refusal? = none) (index : Nat)
    (kept : List RunResult) : (s.stood index kept).Told job runs results := by
  refine ⟨h.form, ?_, waiting_of_ne nofun⟩
  have hstory := h.story
  rw [tale, Walk.open?_of_active hactive] at hstory
  exact hstory

theorem setStatus_self (h : s.walk.status = .ready) : s.setStatus .ready = s := by
  rw [setStatus, ← h]

theorem Told.run (h : s.Told job runs results) (services : Services σ) :
    (s.runCurrent services.logged).2.Told job runs
      (results ++ (Answer.result? ((s.runCurrent services.logged).1.map .came)).toList) := by
  rcases runCurrent_cases services.logged s with ⟨_, heq⟩ | heq | ⟨_, _, _, _, _, _, heq⟩ |
    ⟨step, n, hhand, hopen, heq⟩
  · rw [heq]
    exact h.unanswered rfl
  · rw [heq]
    exact h.unanswered rfl
  · rw [heq]
    exact h.unanswered rfl
  · rw [heq, runTask_eq hhand.node?]
    by_cases heffect : n.kind.hasSideEffect = true
    · rw [if_pos heffect]
      exact (h.prompted hhand).unanswered rfl
    · -- What is waited for has a request to be executed with, so it is not begun again.
      have hready : s.walk.status = .ready := Walk.ready_of_ne hhand.active fun hstatus => by
        obtain ⟨-, request, hrequest, -⟩ := h.waiting hstatus step n hhand
        rw [hopen hstatus] at hrequest
        cases hrequest
      have hbegun : (s.put (s.begun step n)).setStatus .ready = s.put (s.begun step n) :=
        setStatus_self (s := s.put (s.begun step n)) hready
      have hrequest : (s.request step n).task = n.name := rfl
      rw [if_neg heffect, ← hbegun]
      exact h.evaluated (m := s.begun step n) hhand rfl (fun h => absurd h heffect) hrequest services _

theorem Told.execute (h : s.Told job runs results) (services : Services σ) :
    (s.execute services.logged).2.Told job runs
      (results ++ (Answer.result? ((s.execute services.logged).1.map .came)).toList) := by
  rcases execute_cases services.logged s with ⟨_, heq⟩ | ⟨step, n, hhand, hstatus, _, hrest⟩
  · rw [heq]
    exact h.unanswered rfl
  · obtain ⟨hasked, kept, hkept, hown⟩ := h.waiting hstatus step n hhand
    rcases hrest with ⟨hnone, _⟩ | ⟨request, hrequest, heq⟩
    · rw [hnone] at hkept
      cases hkept
    · rw [hrequest] at hkept
      cases hkept
      rw [heq]
      exact h.evaluated (m := n.executing) hhand rfl (fun _ => hasked) hown services _

theorem Told.skip (h : s.Told job runs results) :
    s.skip.2.Told job runs (results ++ (Answer.result? (s.skip.1.map .came)).toList) := by
  rcases skip_cases s with ⟨_, heq⟩ | ⟨step, n, hhand, hstatus, _, heq⟩
  · rw [heq]
    exact h.unanswered rfl
  · rw [heq]
    exact h.skipped hhand (h.waiting hstatus step n hhand).1 _

theorem Told.move (h : s.Told job runs results) (services : Services σ) (m : Move) :
    (s.move services.logged m).2.Told job (runs ++ m.enters?.toList)
      (results ++ (Answer.result? (s.move services.logged m).1).toList) := by
  cases m with
  | enter run =>
    have hanswer : Answer.result? ((s.enter services.logged run).1.map fun _ => .done) = none := by
      cases (s.enter services.logged run).1 <;> rfl
    exact (h.enter services run).unanswered hanswer
  | run => exact (h.run services).unentered
  | execute => exact (h.execute services).unentered
  | skip => exact h.skip.unentered
  | next =>
    refine Told.unentered ?_
    show s.next.2.Told job runs (results ++ (Answer.result? (s.next.1.map .stands)).toList)
    cases hrefusal : s.walk.refusal? with
    | some error => rw [next_refused hrefusal]; exact h.unanswered rfl
    | none => rw [next_eq hrefusal]; exact (h.stood hrefusal _ _).unanswered rfl
  | previous =>
    refine Told.unentered ?_
    show s.previous.2.Told job runs (results ++ (Answer.result? (s.previous.1.map .stands)).toList)
    cases hrefusal : s.walk.refusal? with
    | some error => rw [previous_refused hrefusal]; exact h.unanswered rfl
    | none => rw [previous_eq hrefusal]; exact (h.stood hrefusal _ _).unanswered rfl
  | exit => exact (h.exit.unanswered rfl).unentered

/-! ## All moves -/

/-- The names under which runs are entered. -/
def entries (turns : List (Services σ × Move)) : List String := turns.filterMap fun t => t.2.enters?

theorem Told.through (h : s.Told job runs results) (turns : List (Services σ × Move)) :
    (s.through (loggedTurns turns)).Told job (runs ++ entries turns)
      (results ++ (s.answers (loggedTurns turns)).filterMap Answer.result?) := by
  induction turns generalizing s runs results with
  | nil => simpa [answers, loggedTurns, entries] using h
  | cons t turns ih =>
    have hrest := ih (h.move t.1 t.2)
    rw [List.append_assoc, List.append_assoc] at hrest
    have hentries : entries (t :: turns) = t.2.enters?.toList ++ entries turns := by
      rw [entries, List.filterMap_cons]
      cases t.2.enters? <;> rfl
    have hanswers : (s.answers (loggedTurns (t :: turns))).filterMap Answer.result? =
        (Answer.result? (s.move t.1.logged t.2).1).toList ++
          ((s.move t.1.logged t.2).2.answers (loggedTurns turns)).filterMap Answer.result? := by
      rw [loggedTurns, List.map_cons, answers, List.filterMap_cons]
      cases Answer.result? (s.move t.1.logged t.2).1 <;> rfl
    rw [hentries, hanswers]
    exact hrest

/-- Whatever the job, and whatever plan and evaluator each move finds, the events of any
moves tell what has happened.  Events of tasks lie in a run that has a plan and was neither
left nor entered anew; each entry is told of, with a plan or without one, and where the runs
have different names nothing is told of the tasks of a run before it begins; the evaluator
was handed what the events say, and its answer is told next; and the results that are told
are those that the moves were answered with.  A side effect is asked for by the name that
the plan has for its task, each time before it settles.  That is the name of the task itself
wherever the graph leads from names to tasks of these names. -/
theorem events_after (job : Job) (state : σ) (turns : List (Services σ × Move)) :
    let start : Simulation σ := ⟨Walk.start, job, state, []⟩
    let logging : Simulation (σ × List Request) := ⟨Walk.start, job, (state, []), []⟩
    let events := (start.through turns).events
    Event.Each (fun front e => e.report.isTask = true → Event.Within e.run front) events ∧
    events.filterMap Event.entered? = entries turns ∧
    ((entries turns).Nodup → Event.Each (fun front e => ∀ run, e.entered? = some run →
      ∀ other ∈ front, other.report.isTask = true → other.run ≠ run) events) ∧
    events.filterMap Event.called? = (logging.through (loggedTurns turns)).calls.map Request.task ∧
    Event.Followed events ∧
    events.filterMap Event.settlement? =
      ((start.answers turns).filterMap Answer.result?).map RunResult.report ∧
    Event.Each (fun front e => ∀ task, e.report.settles? = some task → job.graph.Settling e.run task front)
      events ∧
    (job.graph.Indexed → Event.Each (fun front e => ∀ task n, e.report.settles? = some task →
      job.graph.named? task = some n → n.kind.hasSideEffect = true → Event.Asked e.run task front) events) := by
  intro start logging events
  have hstart : logging.Told job [] [] := ⟨rfl, .silent, waiting_of_ne nofun⟩
  have hevents : events = (logging.through (loggedTurns turns)).events :=
    congrArg Simulation.events (through_unlogged logging turns)
  have hanswers : start.answers turns = logging.answers (loggedTurns turns) := answers_unlogged logging turns
  have hstory := (hstart.through turns).story
  rw [tale, ← hevents, ← hanswers, List.nil_append, List.nil_append] at hstory
  have hwithin := hstory.within.2
  have hentered := hstory.entered
  refine ⟨hwithin, hentered, fun hruns => hwithin.ne_run (hentered.symm ▸ hruns), hstory.called_eq.1,
    hstory.called_eq.2, hstory.settled, hstory.settling,
    fun hindexed front e hprefix task n htask hn heffect => ?_⟩
  exact (hstory.settling front e hprefix task htask).asked hindexed hn heffect

/-- A plan cannot be had while a run goes on, and then again: the entry between ends the first
run, and the second begins a new one. -/
theorem events_after_fetchJob :
    fetchJob.graph.Indexed ∧
      let turns : List (Services Unit × Move) := [(fetchServices, .enter "exec-1"), (fetchServices, .run),
        (downServices, .enter "exec-2"), (fetchServices, .execute), (fetchServices, .enter "exec-3"),
        (fetchServices, .run), (fetchServices, .execute)]
      let events := ((⟨Walk.start, fetchJob, (), []⟩ : Simulation Unit).through turns).events
      (entries turns).Nodup ∧
        events = [⟨"exec-1", .started 2⟩, ⟨"exec-1", .sideEffectPending "fetch"⟩,
          ⟨"exec-2", .failed "Collaborator error: down"⟩, ⟨"exec-3", .started 2⟩, ⟨"exec-3", .sideEffectPending "fetch"⟩,
          ⟨"exec-3", .taskStarted "fetch"⟩, ⟨"exec-3", .taskCompleted "fetch" .null⟩] ∧
        (∀ other ∈ events.take 3, other.report.isTask = true → other.run ≠ "exec-3") ∧
        Event.Asked "exec-3" "fetch" (events.take 6) := by
  have hbuilt : fetchJob.graph.Built := ⟨_, rfl⟩
  have hindexed : fetchJob.graph.Indexed := hbuilt.sound.wellFormed.named
  refine ⟨hindexed, ?_⟩
  intro turns events
  have hevents : events = [⟨"exec-1", .started 2⟩, ⟨"exec-1", .sideEffectPending "fetch"⟩,
      ⟨"exec-2", .failed "Collaborator error: down"⟩, ⟨"exec-3", .started 2⟩, ⟨"exec-3", .sideEffectPending "fetch"⟩,
      ⟨"exec-3", .taskStarted "fetch"⟩, ⟨"exec-3", .taskCompleted "fetch" .null⟩] := by
    decide +kernel
  have hnames : (entries turns).Nodup := by decide
  obtain ⟨-, -, hfresh, -, -, -, -, hasked⟩ := events_after fetchJob () turns
  have hbegins : events.take 3 ++ [⟨"exec-3", .started 2⟩] <+: events := by rw [hevents]; decide
  have hsettles : events.take 6 ++ [⟨"exec-3", .taskCompleted "fetch" .null⟩] <+: events := by
    rw [hevents]
    exact List.prefix_rfl
  exact ⟨hnames, hevents, hfresh hnames _ _ hbegins "exec-3" rfl,
    hasked hindexed _ _ hsettles "fetch" _ rfl rfl rfl⟩

/-- Two tasks of one id, which a snapshot may hold. -/
def twinSnapshot : Snapshot :=
  { format := Snapshot.currentFormat
    config := JobConfig.ofType .webhook
    nodes := [⟨"node_1", "a", .http, Dict.empty, Mock.off, Position.origin⟩,
      ⟨"node_1", "b", .http, Dict.empty, Mock.off, Position.origin⟩]
    edges := []
    counters := ⟨2, 0⟩ }

/- The names of both lead to the first, so it settles behind a question for the second. -/
example :
    twinSnapshot.restore.map (fun job =>
      ((⟨Walk.start, job, (), []⟩ : Simulation Unit).after (constantly .null)
        [.enter "exec-1", .next, .run, .skip]).events) =
        .ok [⟨"exec-1", .started 2⟩, ⟨"exec-1", .sideEffectPending "b"⟩,
          ⟨"exec-1", .taskFailed "a" "no stored mock response to use"⟩] := by
  decide +kernel

end Simulation
end JobPipeline
