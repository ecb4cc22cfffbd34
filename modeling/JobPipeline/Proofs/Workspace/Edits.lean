import JobPipeline.Workspace
import JobPipeline.Proofs.Graph.Anchored

/-
Edits of a workspace.

A workspace hands an edit on to the graph of its job and compiles the job anew behind it.
Two edits are quiet, those of a mock and of a place: they leave the document as it is.  An
edit that is refused leaves everything as it is.
-/
namespace JobPipeline

/-- An edit of a workspace with its arguments. -/
inductive WorkspaceEdit where
  | addNode (kind : TaskKind) (position : Position) (attachment : Option Attachment)
  | connect (source target : String)
  | disconnect (id : String)
  | rename (id name : String) (policy : RenamePolicy)
  | delete (id : String)
  | replaceKind (id : String) (kind : TaskKind)
  | setFields (id : String) (values : List (String × String))
  | setMock (id : String) (mock : Mock)
  | setPosition (id : String) (position : Position)
  | updateConfig (f : JobConfig → JobConfig)

/-- The text shows nothing of what the edit changes. -/
inductive Edit.Quiet : Edit → Prop
  | setMock (id : String) (mock : Mock) : Quiet (.setMock id mock)
  | setPosition (id : String) (position : Position) : Quiet (.setPosition id position)

namespace Workspace

/-- The answer of an edit, without what it brings. -/
def answer (w : Workspace) : WorkspaceEdit → Except JobError Unit
  | .addNode kind position attachment => (w.addNode kind position attachment).1.map fun _ => ()
  | .connect source target => (w.connect source target).1.map fun _ => ()
  | .disconnect id => (w.disconnect id).1.map fun _ => ()
  | .rename id name policy => (w.rename id name policy).1.map fun _ => ()
  | .delete id => (w.delete id).1.map fun _ => ()
  | .replaceKind id kind => (w.replaceKind id kind).1.map fun _ => ()
  | .setFields id values => (w.setFields id values).1.map fun _ => ()
  | .setMock id mock => (w.setMock id mock).1.map fun _ => ()
  | .setPosition id position => (w.setPosition id position).1.map fun _ => ()
  | .updateConfig _ => .ok ()

/-- The workspace that an edit leaves, whether it succeeds or fails. -/
def after (w : Workspace) : WorkspaceEdit → Workspace
  | .addNode kind position attachment => (w.addNode kind position attachment).2
  | .connect source target => (w.connect source target).2
  | .disconnect id => (w.disconnect id).2
  | .rename id name policy => (w.rename id name policy).2
  | .delete id => (w.delete id).2
  | .replaceKind id kind => (w.replaceKind id kind).2
  | .setFields id values => (w.setFields id values).2
  | .setMock id mock => (w.setMock id mock).2
  | .setPosition id position => (w.setPosition id position).2
  | .updateConfig f => w.updateConfig f

/-- All that can come of an edit: the answer and the workspace behind it. -/
inductive Outcome (w : Workspace) : WorkspaceEdited Unit → Prop
  | refused (error : JobError) : Outcome w (.error error, w)
  | compiled (edit : Edit) : Outcome w (.ok (), ofJob { w.job with graph := w.job.graph.after edit })
  | quiet (edit : Edit) (h : edit.Quiet) :
    Outcome w (.ok (), { w with job := { w.job with graph := w.job.graph.after edit } })
  | configured (f : JobConfig → JobConfig) : Outcome w (.ok (), w.updateConfig f)

section Outcome

open TaskGraph (Decided)

variable {w : Workspace} {α : Type} {f : TaskGraph → Edited α}

theorem outcome_edit (edit : Edit) (h : Decided w.job.graph (f w.job.graph))
    (hafter : w.job.graph.after edit = (f w.job.graph).2) :
    Outcome w ((w.edit f).1.map fun _ => (), (w.edit f).2) := by
  rw [Workspace.edit, editQuietly]
  generalize f w.job.graph = edited at h hafter ⊢
  cases h with
  | refused error => exact .refused error
  | @done a g _ =>
    obtain rfl : w.job.graph.after edit = g := hafter
    exact .compiled edit

theorem outcome_editQuietly {edit : Edit} (hquiet : edit.Quiet) (h : Decided w.job.graph (f w.job.graph))
    (hafter : w.job.graph.after edit = (f w.job.graph).2) :
    Outcome w ((w.editQuietly f).1.map fun _ => (), (w.editQuietly f).2) := by
  rw [editQuietly]
  generalize f w.job.graph = edited at h hafter ⊢
  cases h with
  | refused error => exact .refused error
  | @done a g _ =>
    obtain rfl : w.job.graph.after edit = g := hafter
    exact .quiet edit hquiet

end Outcome

/-- No edit of a workspace has another outcome. -/
theorem outcome {w : Workspace} (h : w.job.graph.Anchored) (edit : WorkspaceEdit) :
    Outcome w (w.answer edit, w.after edit) := by
  cases edit with
  | addNode kind position attachment =>
    exact outcome_edit (.add kind position attachment) (h.addNamed ..) rfl
  | connect source target => exact outcome_edit (.connect source target) (h.connect source target) rfl
  | disconnect id => exact outcome_edit (.disconnect id) (h.disconnect id) rfl
  | rename id name policy => exact outcome_edit (.rename id name policy) (h.rename id name policy) rfl
  | delete id => exact outcome_edit (.delete id) (h.delete id) rfl
  | replaceKind id kind => exact outcome_edit (.replaceKind id kind) (h.change id fun n => rfl) rfl
  | setFields id values => exact outcome_edit (.setFields id values) (h.change id fun n => rfl) rfl
  | setMock id mock => exact outcome_editQuietly (.setMock id mock) (h.change id fun n => rfl) rfl
  | setPosition id position =>
    exact outcome_editQuietly (.setPosition id position) (h.change id fun n => rfl) rfl
  | updateConfig f => exact .configured f

theorem Outcome.unchanged {w : Workspace} {edited : WorkspaceEdited Unit} (h : Outcome w edited)
    {error : JobError} (herror : edited.1 = .error error) : edited.2 = w := by
  cases h with
  | refused => rfl
  | compiled | quiet | configured => cases herror

/-- An edit that answers with an error has changed nothing, neither of the graph nor of the
workspace around it. -/
theorem unchanged_of_error :
    (∀ (g : TaskGraph) (edit : Edit) (error : JobError), g.Handled →
      g.answer edit = .error error → g.after edit = g) ∧
    ∀ (w : Workspace) (edit : WorkspaceEdit) (error : JobError), w.job.graph.Handled →
      w.answer edit = .error error → w.after edit = w := by
  constructor
  · intro g edit error hg herror
    exact (hg.anchored.decided edit).unchanged herror
  · intro w edit error hw herror
    exact (outcome hw.anchored edit).unchanged herror

/-- A task with a side effect, waiting for a decision, that feeds one without. -/
def pairGraph : TaskGraph :=
  (((TaskGraph.empty.afterAll [.addNamed .http "fetch" .origin none,
    .addNamed .jsonParse "parse" .origin (some ⟨"node_1", .target⟩)]).send "node_1" .prepare).2.send
      "node_1" (.run [] Dict.empty)).2

theorem unchanged_of_error_pairGraph :
    let w := ofJob ⟨JobConfig.ofType .webhook, pairGraph⟩
    pairGraph.Handled ∧
      pairGraph.answer (.connect "node_2" "node_1") = .error (.cycle "parse" "fetch") ∧
      pairGraph.after (.connect "node_2" "node_1") = pairGraph ∧
      w.answer (.rename "node_1" "parse" .retargetTokens) = .error (.duplicateIdentifier "parse") ∧
      w.after (.rename "node_1" "parse" .retargetTokens) = w := by
  intro w
  have hhandled : pairGraph.Handled := by
    unfold pairGraph
    exact .send (.send (TaskGraph.Handled.empty.afterAll _) _ _) _ _
  have hcycle : pairGraph.answer (.connect "node_2" "node_1") = .error (.cycle "parse" "fetch") := rfl
  have htaken : w.answer (.rename "node_1" "parse" .retargetTokens) = .error (.duplicateIdentifier "parse") := rfl
  exact ⟨hhandled, hcycle, unchanged_of_error.1 _ _ _ hhandled hcycle, htaken,
    unchanged_of_error.2 w _ _ hhandled htaken⟩

end Workspace
end JobPipeline
