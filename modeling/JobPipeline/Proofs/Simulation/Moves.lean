import JobPipeline.Proofs.Plan.Compiled
import JobPipeline.Proofs.Simulation.Steps

/-
Runs of a simulation.

A caller has the moves below and makes them in any order.  A move may be refused, and
the next one is then made from the simulation that the refusal left.  No move touches
the form of the graph, so a run can be told against the graph that it began with.

The services may be others at each move (`through`): a text that had a plan when a run was
entered need not have one when the next is.
-/
namespace JobPipeline

inductive Move where
  /-- Enters a run of this name. -/
  | enter (run : String)
  | run
  | execute
  | skip
  | next
  | previous
  | exit
deriving DecidableEq

/-- The name of the run that is entered. -/
def Move.enters? : Move → Option String
  | .enter name => some name
  | _ => none

/-- What a move that is not refused answers with. -/
inductive Answer where
  | done
  | came (outcome : StepOutcome)
  /-- The place in the plan where the walk stands now. -/
  | stands (index : Nat)
deriving DecidableEq

namespace Walk

variable {w : Walk}

theorem ready_of_ne (h : w.refusal? = none) (hopen : w.status ≠ .awaiting) : w.status = .ready := by
  rw [refusal?] at h
  cases hstatus : w.status with
  | ready => rfl
  | awaiting => exact absurd hstatus hopen
  | inactive | failed => rw [hstatus] at h; cases h

theorem resume_eq (h : w.refusal? = none) : w.resume = { w with status := .ready } := by
  rw [resume]
  split
  · rfl
  · next hopen => rw [← ready_of_ne h hopen]

/-- The place behind the task at hand. -/
def ahead (w : Walk) : Nat := if w.index < w.plan.tasks.length then w.index + 1 else w.index

/-- The results without that of the task before. -/
def retained (w : Walk) : List RunResult :=
  match w.index with
  | 0 => w.results
  | index + 1 =>
    match w.plan.tasks[index]? with
    | some step => without step.id w.results
    | none => w.results

theorem retained_sublist (w : Walk) : w.retained.Sublist w.results := by
  rw [retained]
  split
  · exact List.Sublist.refl _
  · split
    · exact List.filter_sublist
    · exact List.Sublist.refl _

end Walk

namespace Simulation

variable {σ : Type} {services : Services σ} {s : Simulation σ}

def move (services : Services σ) (s : Simulation σ) : Move → Stepped σ Answer
  | .enter run => ((s.enter services run).1.map fun _ => .done, (s.enter services run).2)
  | .run => ((s.runCurrent services).1.map .came, (s.runCurrent services).2)
  | .execute => ((s.execute services).1.map .came, (s.execute services).2)
  | .skip => (s.skip.1.map .came, s.skip.2)
  | .next => (s.next.1.map .stands, s.next.2)
  | .previous => (s.previous.1.map .stands, s.previous.2)
  | .exit => (.ok .done, s.exit)

/-- The simulation behind a sequence of moves, each made with services of its own. -/
def through (s : Simulation σ) (turns : List (Services σ × Move)) : Simulation σ :=
  turns.foldl (fun s t => (s.move t.1 t.2).2) s

@[simp] theorem through_nil (s : Simulation σ) : s.through [] = s := rfl

@[simp] theorem through_cons (s : Simulation σ) (t : Services σ × Move) (turns : List (Services σ × Move)) :
    s.through (t :: turns) = (s.move t.1 t.2).2.through turns := rfl

/-- The simulation behind a sequence of moves that are all made with the same services. -/
def after (services : Services σ) (s : Simulation σ) (moves : List Move) : Simulation σ :=
  s.through (moves.map fun m => (services, m))

@[simp] theorem after_nil (services : Services σ) (s : Simulation σ) : s.after services [] = s := rfl

@[simp] theorem after_cons (services : Services σ) (s : Simulation σ) (m : Move) (moves : List Move) :
    s.after services (m :: moves) = (s.move services m).2.after services moves := rfl

theorem next_refused {error : JobError} (h : s.walk.refusal? = some error) : s.next = (.error error, s) := by
  rw [next, Walk.next, h]

theorem previous_refused {error : JobError} (h : s.walk.refusal? = some error) :
    s.previous = (.error error, s) := by
  rw [previous, Walk.previous, h]

/-- Without a run no step can be made, and each says why. -/
theorem move_refused {error : JobError} (h : s.walk.refusal? = some error) {m : Move}
    (henter : ∀ run, m ≠ .enter run) (hexit : m ≠ .exit) : s.move services m = (.error error, s) := by
  have hpending : s.pendingTask = .error error := by
    rw [pendingTask, h]
  cases m with
  | enter run => exact absurd rfl (henter run)
  | run => rw [move, runCurrent_refused h]; rfl
  | execute => rw [move, execute_error hpending]; rfl
  | skip => rw [move, skip_error hpending]; rfl
  | next => rw [move, next_refused h]; rfl
  | previous => rw [move, previous_refused h]; rfl
  | exit => exact absurd rfl hexit

/-! ## Entering and leaving -/

theorem source_clear (s : Simulation σ) : s.clear.job.compile.source = s.job.graph.source := by
  rw [Job.source_compile]
  exact TaskGraph.source_of_form (TaskGraph.form_resetAll s.job.graph)

/-- Everything is as it was, but for a run of a new name that has no plan yet. -/
def renewed (s : Simulation σ) (run : String) : Simulation σ :=
  { s.clear with walk := { s.clear.walk with run, runs := s.walk.runs + 1 } }

/-- A run stands at the begin of its plan. -/
def entered (plan : Plan) (s : Simulation σ) (run : String := s.walk.nextRun) : Simulation σ :=
  { (s.renewed run).emit (.started plan.tasks.length) with
    walk := { (s.renewed run).walk with plan, status := .ready } }

/-- Without a plan there is no run. -/
def barred (error : JobError) (s : Simulation σ) (run : String := s.walk.nextRun) : Simulation σ :=
  ((s.renewed run).emit (.failed error.message)).setStatus
    (match error with
      | .parse fault => .failed fault
      | _ => .inactive)

/-- What entering comes to, by the answer to the text. -/
def planned (s : Simulation σ) (answer : Except JobError Plan) (run : String := s.walk.nextRun) :
    Stepped σ Unit :=
  match answer with
  | .ok plan => (.ok (), s.entered plan run)
  | .error error => (.error error, s.barred error run)

section

variable {run : String}

theorem enter_eq (services : Services σ) (s : Simulation σ) (run : String) :
    s.enter services run = s.planned (services.plan s.job.graph.source) run := by
  rw [← source_clear, enter]
  rfl

theorem enter_ok {plan : Plan} (h : services.plan s.job.graph.source = .ok plan) :
    s.enter services run = (.ok (), s.entered plan run) := by
  rw [enter_eq, h]
  rfl

theorem enter_error {error : JobError} (h : services.plan s.job.graph.source = .error error) :
    s.enter services run = (.error error, s.barred error run) := by
  rw [enter_eq, h]
  rfl

end

/-! ## Moving on and back -/

/-- The walk stands at another place, with nothing waited for. -/
def stood (index : Nat) (results : List RunResult) (s : Simulation σ) : Simulation σ :=
  { s with walk := { s.walk with index, results, status := .ready } }

theorem next_eq (h : s.walk.refusal? = none) :
    s.next = (.ok s.walk.ahead, s.stood s.walk.ahead s.walk.results) := by
  have hresume : ({ s.walk with index := s.walk.ahead }).resume =
      { s.walk with index := s.walk.ahead, status := .ready } := Walk.resume_eq h
  have hnext : s.walk.next = (.ok s.walk.ahead, { s.walk with index := s.walk.ahead, status := .ready }) := by
    rw [Walk.next, h]
    show (Except.ok ({ s.walk with index := s.walk.ahead }).resume.index,
      ({ s.walk with index := s.walk.ahead }).resume) = _
    rw [hresume]
  rw [next, hnext]
  rfl

theorem previous_eq (h : s.walk.refusal? = none) :
    s.previous = (.ok (s.walk.index - 1), s.stood (s.walk.index - 1) s.walk.retained) := by
  have hprevious : s.walk.previous = (.ok (s.walk.index - 1),
      { s.walk with index := s.walk.index - 1, results := s.walk.retained, status := .ready }) := by
    rw [Walk.previous, h, Walk.retained]
    cases hindex : s.walk.index with
    | zero =>
      dsimp only
      rw [Walk.resume_eq h]
      simp only [hindex, Nat.zero_sub]
    | succ index =>
      dsimp only
      rw [Walk.resume_eq (w := { s.walk with index, results := _ }) h]
      rfl
  rw [previous, hprevious]
  rfl

/-! ## What no move touches -/

/-- A run has gone on: the form of the job and the plan are as they were. -/
structure OnCourse (s s' : Simulation σ) : Prop where
  form : s'.job.graph.form = s.job.graph.form
  config : s'.job.config = s.job.config
  plan : s'.walk.plan = s.walk.plan

namespace OnCourse

variable {s' s'' : Simulation σ} {n m : Node}

theorem refl (s : Simulation σ) : OnCourse s s := ⟨rfl, rfl, rfl⟩

theorem trans (h : OnCourse s s') (h' : OnCourse s' s'') : OnCourse s s'' :=
  ⟨h'.form.trans h.form, h'.config.trans h.config, h'.plan.trans h.plan⟩

theorem put (h : s.job.graph.node? n.id = some n) (hform : m.form = n.form) : OnCourse s (s.put m) :=
  ⟨TaskGraph.form_put (Node.id_of_form hform ▸ h) hform, rfl, rfl⟩

theorem settled (h : s.job.graph.node? n.id = some n) (response : Response) :
    OnCourse s (s.settled n response) := ⟨TaskGraph.form_put h rfl, rfl, rfl⟩

theorem runTask (h : s.job.graph.node? n.id = some n) (step : Instruction) :
    OnCourse s (runTask services step n.id s).2 := by
  have hbegun : OnCourse s (s.put (s.begun step n)) := put h rfl
  rw [runTask_eq h]
  split
  · exact ⟨hbegun.form, rfl, rfl⟩
  · have hsettled := settled (node?_put_self (m := s.begun step n) h)
      (services.respond (s.request step n) s.state)
    exact hbegun.trans ⟨hsettled.form, rfl, rfl⟩

theorem run (services : Services σ) (s : Simulation σ) : OnCourse s (s.runCurrent services).2 := by
  obtain h | ⟨step, n, hhand, _, h⟩ := runCurrent_left services s
  · rw [h]
    exact refl s
  · rw [h]
    exact runTask hhand.node? step

theorem execute (services : Services σ) (s : Simulation σ) : OnCourse s (s.execute services).2 := by
  rcases execute_cases services s with ⟨_, h⟩ | ⟨step, n, hhand, _, _, hrest⟩
  · rw [h]
    exact refl s
  · have hexecuting : OnCourse s (s.put n.executing) := put hhand.node? rfl
    rcases hrest with ⟨_, _, h⟩ | ⟨request, _, h⟩
    · rw [h]
      exact hexecuting
    · have hsettled := settled (node?_put_self (m := n.executing) hhand.node?)
        (services.respond request s.state)
      rw [h]
      exact hexecuting.trans ⟨hsettled.form, rfl, rfl⟩

theorem skip (s : Simulation σ) : OnCourse s s.skip.2 := by
  rcases skip_cases s with ⟨_, h⟩ | ⟨step, n, hhand, _, _, h⟩
  · rw [h]
    exact refl s
  · rw [h]
    exact ⟨(settled hhand.node? n.skipResponse).form, rfl, rfl⟩

theorem next (s : Simulation σ) : OnCourse s s.next.2 := by
  cases hrefusal : s.walk.refusal? with
  | some error => rw [next_refused hrefusal]; exact refl s
  | none => rw [next_eq hrefusal]; exact ⟨rfl, rfl, rfl⟩

theorem previous (s : Simulation σ) : OnCourse s s.previous.2 := by
  cases hrefusal : s.walk.refusal? with
  | some error => rw [previous_refused hrefusal]; exact refl s
  | none => rw [previous_eq hrefusal]; exact ⟨rfl, rfl, rfl⟩

theorem move (services : Services σ) (s : Simulation σ) {m : Move} (henter : ∀ run, m ≠ .enter run)
    (hexit : m ≠ .exit) : OnCourse s (s.move services m).2 := by
  cases m with
  | enter run => exact absurd rfl (henter run)
  | run => exact run services s
  | execute => exact execute services s
  | skip => exact skip s
  | next => exact next s
  | previous => exact previous s
  | exit => exact absurd rfl hexit

end OnCourse

theorem form_move (services : Services σ) (s : Simulation σ) (m : Move) :
    (s.move services m).2.job.graph.form = s.job.graph.form := by
  by_cases henter : ∃ run, m = .enter run
  · obtain ⟨run, rfl⟩ := henter
    show (s.enter services run).2.job.graph.form = _
    cases hplan : services.plan s.job.graph.source with
    | ok plan => rw [enter_ok hplan]; exact TaskGraph.form_resetAll _
    | error error => rw [enter_error hplan]; exact TaskGraph.form_resetAll _
  · rw [not_exists] at henter
    by_cases hexit : m = .exit
    · subst hexit
      exact TaskGraph.form_resetAll _
    · exact (OnCourse.move services s henter hexit).form

theorem config_move (services : Services σ) (s : Simulation σ) (m : Move) :
    (s.move services m).2.job.config = s.job.config := by
  by_cases henter : ∃ run, m = .enter run
  · obtain ⟨run, rfl⟩ := henter
    show (s.enter services run).2.job.config = _
    cases hplan : services.plan s.job.graph.source with
    | ok plan => rw [enter_ok hplan]; rfl
    | error error => rw [enter_error hplan]; rfl
  · rw [not_exists] at henter
    by_cases hexit : m = .exit
    · subst hexit
      rfl
    · exact (OnCourse.move services s henter hexit).config

/-- A run is one of a job: it has the form and the settings of the job, and no plan but the
one that the job's text has. -/
structure RunOf (services : Services σ) (job : Job) (s : Simulation σ) : Prop where
  form : s.job.graph.form = job.graph.form
  config : s.job.config = job.config
  plan : s.walk.plan = Plan.empty ∨ services.plan job.graph.source = .ok s.walk.plan

theorem RunOf.move {job : Job} (h : s.RunOf services job) (m : Move) : (s.move services m).2.RunOf services job := by
  have hreset : s.job.graph.resetAll.form = job.graph.form :=
    (TaskGraph.form_resetAll s.job.graph).trans h.form
  by_cases henter : ∃ run, m = .enter run
  · obtain ⟨run, rfl⟩ := henter
    show (s.enter services run).2.RunOf services job
    cases hplan : services.plan s.job.graph.source with
    | ok plan =>
      rw [enter_ok hplan]
      rw [TaskGraph.source_of_form h.form] at hplan
      exact ⟨hreset, h.config, .inr hplan⟩
    | error error =>
      rw [enter_error hplan]
      exact ⟨hreset, h.config, .inl rfl⟩
  · rw [not_exists] at henter
    by_cases hexit : m = .exit
    · subst hexit
      exact ⟨hreset, h.config, .inl rfl⟩
    · have hcourse := OnCourse.move services s henter hexit
      exact ⟨hcourse.form.trans h.form, hcourse.config.trans h.config, hcourse.plan.symm ▸ h.plan⟩

theorem RunOf.after {job : Job} (h : s.RunOf services job) (moves : List Move) :
    (s.after services moves).RunOf services job := by
  induction moves generalizing s with
  | nil => exact h
  | cons m moves ih => exact ih (h.move m)

end Simulation
end JobPipeline
