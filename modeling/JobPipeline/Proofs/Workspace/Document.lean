import JobPipeline.Proofs.Snapshot.RoundTrip
import JobPipeline.Proofs.Workspace.Edits

/-
The document of a workspace is never out of date.

Edits that fail, quiet edits and the moves of a simulation all leave the document as it is.
It stays right for three reasons: a failed edit has not touched the job, the text shows no
mock and no place, and a simulation leaves the form of the graph alone.
-/
namespace JobPipeline

/-! ## Graphs that are read -/

namespace TaskGraph

variable {g g' : TaskGraph}

theorem built_empty : empty.Built := ⟨[], rfl⟩

theorem Built.after (h : g.Built) (edit : Edit) : (g.after edit).Built := by
  obtain ⟨edits, rfl⟩ := h
  refine ⟨edits ++ [edit], ?_⟩
  rw [afterAll, afterAll, List.foldl_append]
  rfl

theorem built_of_addTasks {tasks : List (ParsedTask × (Nat × Nat))} (hg : g.Built)
    (h : ParsedSource.addTasks tasks g = .ok g') : g'.Built := by
  induction tasks generalizing g with
  | nil =>
    cases h
    exact hg
  | cons first rest ih =>
    obtain ⟨task, place⟩ := first
    rw [ParsedSource.addTasks] at h
    split at h
    · cases h
    · next id grown hadd =>
      obtain rfl : g.after (.addNamed task.kind task.name (Layout.position place) none) = grown :=
        congrArg Prod.snd hadd
      exact ih ((hg.after _).after (.setFields id _)) h

theorem built_of_addEdges {edges : List ParsedEdge} (hg : g.Built)
    (h : ParsedSource.addEdges edges g = .ok g') : g'.Built := by
  induction edges generalizing g with
  | nil =>
    cases h
    exact hg
  | cons edge rest ih =>
    rw [ParsedSource.addEdges] at h
    split at h
    · cases h
    · next joined hconnect =>
      obtain rfl : g.after (.connectNamed edge.source edge.target) = joined := congrArg Prod.snd hconnect
      exact ih (hg.after _) h

/-- A graph that is read from a text could have been made by edits. -/
theorem built_of_ofSource {text : String} (h : ofSource text = .ok g) : g.Built := by
  rw [ofSource] at h
  split at h
  · cases h
  · rw [ParsedSource.graph] at h
    split at h
    · cases h
    · next hadd => exact built_of_addEdges (built_of_addTasks built_empty hadd) h

theorem built_of_ofSpec {text : String} {read : ImportedJob} (h : Job.ofSpec text = .ok read) :
    read.job.graph.Built := by
  rw [Job.ofSpec] at h
  dsimp only at h
  split at h
  · cases h
  · split at h
    · cases h
    · split at h
      · cases h
        exact built_empty
      · split at h
        · cases h
        · next hgraph =>
          cases h
          exact built_of_ofSource hgraph

/-! ## Quiet edits -/

theorem bodyLines_change (hids : (g.nodes.map Node.id).Nodup) (id : String) {f : Node → Node}
    (hf : ∀ n, (f n).face = n.face) : (g.change id f).2.bodyLines = g.bodyLines := by
  rw [change]
  split
  · show (g.updateNode id f).bodyLines = _
    rw [updateNode, updateFirst_eq_map hids]
    refine bodyLines_map (fun n => ?_) g
    split
    · exact hf n
    · rfl
  · rfl

theorem bodyLines_quiet (hids : (g.nodes.map Node.id).Nodup) {edit : Edit} (h : edit.Quiet) :
    (g.after edit).bodyLines = g.bodyLines := by
  cases h with
  | setMock id mock => exact bodyLines_change hids id fun _ => rfl
  | setPosition id position => exact bodyLines_change hids id fun _ => rfl

end TaskGraph

/-! ## Workspaces -/

namespace Workspace

/-- The document belongs to the job, and the graph is fit for further edits. -/
structure Current (w : Workspace) : Prop where
  sound : w.job.graph.Sound
  document : w.document = w.job.compile

theorem current_ofJob {job : Job} (h : job.graph.Sound) : (ofJob job).Current := ⟨h, rfl⟩

theorem Current.after {w : Workspace} (h : w.Current) (edit : WorkspaceEdit) : (w.after edit).Current := by
  have houtcome := outcome h.sound.anchored edit
  generalize w.answer edit = answer, w.after edit = w' at houtcome ⊢
  cases houtcome with
  | refused => exact h
  | compiled edit => exact current_ofJob (h.sound.after edit)
  | quiet edit hquiet =>
    refine ⟨h.sound.after edit, h.document.trans ?_⟩
    rw [Job.compile, Job.compile, TaskGraph.bodyLines_quiet h.sound.wellFormed.nodeIds hquiet]
  | configured f => exact current_ofJob h.sound

theorem Current.restore {w w' : Workspace} (h : w.Current) (hrestore : Workspace.restore w.snapshot = .ok w') :
    w'.Current := by
  rw [Workspace.restore, snapshot, Snapshot.restore_capture h.sound] at hrestore
  cases hrestore
  exact current_ofJob (h.sound.of_form (TaskGraph.form_resetAll w.job.graph))

section Moves

variable {σ : Type}

theorem Current.move {w : Workspace} (h : w.Current) (services : Services σ) {s : Simulation σ}
    (hs : s.job = w.job) (m : Move) : ({ w with job := (s.move services m).2.job } : Workspace).Current := by
  have hform := hs ▸ Simulation.form_move services s m
  have hconfig := hs ▸ Simulation.config_move services s m
  exact ⟨h.sound.of_form hform, h.document.trans (TaskGraph.compile_of_form hconfig hform).symm⟩

end Moves

/-- A workspace that was begun anew, with a spec text or with the snapshot of another one, and
was then edited, and moved on by simulations, in any order. -/
inductive Reached : Workspace → Prop
  | new (type : JobType) : Reached (new type)
  | ofSpec {text : String} {w : Workspace} {warnings : List String}
    (h : ofSpec text = .ok (w, warnings)) : Reached w
  | restore {w w' : Workspace} (hw : Reached w) (h : restore w.snapshot = .ok w') : Reached w'
  | edit {w : Workspace} (hw : Reached w) (edit : WorkspaceEdit) : Reached (w.after edit)
  | move {w : Workspace} (hw : Reached w) {σ : Type} (services : Services σ) {s : Simulation σ}
    (hs : s.job = w.job) (m : Move) : Reached { w with job := (s.move services m).2.job }

theorem Reached.current {w : Workspace} (h : w.Reached) : w.Current := by
  induction h with
  | new type => exact current_ofJob TaskGraph.sound_empty
  | @ofSpec text w warnings h =>
    rw [Workspace.ofSpec] at h
    split at h
    · cases h
    · next hread =>
      cases h
      exact current_ofJob (TaskGraph.built_of_ofSpec hread).sound
  | restore _ h ih => exact ih.restore h
  | edit _ edit ih => exact ih.after edit
  | move _ services hs m ih => exact ih.move services hs m

theorem document_eq_compile {w : Workspace} (h : w.Reached) : w.document = w.job.compile :=
  h.current.document

/-- A workspace with a task, a refused edit, a run that was entered and a quiet edit behind it. -/
def tried : Workspace :=
  let w := ((new .webhook).after (.addNode .http .origin none)).after (.connect "node_1" "node_1")
  let entered := ((⟨Walk.start, w.job, (), []⟩ : Simulation Unit).move Snapshot.stalled (.enter "exec-1")).2
  ({ w with job := entered.job } : Workspace).after (.setMock "node_1" (Mock.ofValue .null))

theorem document_eq_compile_tried :
    tried.Reached ∧ tried.document = tried.job.compile ∧
      ∃ w, restore tried.snapshot = .ok w ∧ w.Reached ∧ w.document = w.job.compile := by
  have hreached : tried.Reached := by
    unfold tried
    exact .edit (.move (.edit (.edit (.new .webhook) _) _) _ rfl (.enter _)) _
  have hrestore : restore tried.snapshot =
      .ok (ofJob { tried.job with graph := tried.job.graph.resetAll }) := by
    rw [restore, snapshot, Snapshot.restore_capture hreached.current.sound]
  have hrestored := hreached.restore hrestore
  exact ⟨hreached, document_eq_compile hreached, _, hrestore, hrestored, document_eq_compile hrestored⟩

end Workspace
end JobPipeline
