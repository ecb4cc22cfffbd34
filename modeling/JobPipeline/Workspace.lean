import JobPipeline.Document
import JobPipeline.Import
import JobPipeline.Snapshot

/-
A workspace: a job that is being edited, and its spec text.

Every edit that succeeds compiles the job anew, so the document always belongs
to the job.  Two parts of a task do not show in the text, its mock and its place
on the canvas, and setting them compiles nothing.
-/
namespace JobPipeline

structure Workspace where
  job : Job
  document : Document
deriving DecidableEq, Repr

/-- The answer of an edit and the workspace it leaves. -/
abbrev WorkspaceEdited (α : Type) := Except JobError α × Workspace

namespace Workspace

def ofJob (job : Job) : Workspace := ⟨job, job.compile⟩

def new (type : JobType) : Workspace := ofJob (Job.ofType type)

/-- A workspace for the job of a spec text, with the warnings of reading it. -/
def ofSpec (text : String) : Except JobError (Workspace × List String) :=
  match Job.ofSpec text with
  | .error error => .error error
  | .ok read => .ok (ofJob read.job, read.warnings)

def restore (snapshot : Snapshot) : Except JobError Workspace :=
  match snapshot.restore with
  | .error error => .error error
  | .ok job => .ok (ofJob job)

def snapshot (w : Workspace) : Snapshot := Snapshot.capture w.job

def text (w : Workspace) : String := w.document.text

def errors (w : Workspace) : List ValidationError := w.job.errors

def recompile (w : Workspace) : Workspace := ofJob w.job

def updateConfig (w : Workspace) (f : JobConfig → JobConfig) : Workspace :=
  ofJob { w.job with config := f w.job.config }

/-- Edits the graph and leaves the document as it is. -/
def editQuietly {α : Type} (w : Workspace) (f : TaskGraph → Edited α) : WorkspaceEdited α :=
  let (answer, graph) := f w.job.graph
  (answer, { w with job := { w.job with graph } })

/-- Edits the graph, and compiles the job anew if the edit succeeds. -/
def edit {α : Type} (w : Workspace) (f : TaskGraph → Edited α) : WorkspaceEdited α :=
  match w.editQuietly f with
  | (.ok a, w) => (.ok a, w.recompile)
  | (.error error, w) => (.error error, w)

def addNode (w : Workspace) (kind : TaskKind) (position : Position)
    (attachment : Option Attachment) : WorkspaceEdited String :=
  w.edit fun g => g.add kind position attachment

def connect (w : Workspace) (source target : String) : WorkspaceEdited String :=
  w.edit fun g => g.connect source target

def disconnect (w : Workspace) (id : String) : WorkspaceEdited Edge :=
  w.edit fun g => g.disconnect id

def rename (w : Workspace) (id name : String) (policy : RenamePolicy) : WorkspaceEdited Unit :=
  w.edit fun g => g.rename id name policy

def delete (w : Workspace) (id : String) : WorkspaceEdited (List String) :=
  w.edit fun g => g.delete id

def replaceKind (w : Workspace) (id : String) (kind : TaskKind) : WorkspaceEdited Unit :=
  w.edit fun g => g.replaceKind id kind

def setFields (w : Workspace) (id : String) (values : List (String × String)) :
    WorkspaceEdited Unit :=
  w.edit fun g => g.setFields id values

def setMock (w : Workspace) (id : String) (mock : Mock) : WorkspaceEdited Unit :=
  w.editQuietly fun g => g.setMock id mock

def setPosition (w : Workspace) (id : String) (position : Position) : WorkspaceEdited Unit :=
  w.editQuietly fun g => g.setPosition id position

end Workspace
end JobPipeline
