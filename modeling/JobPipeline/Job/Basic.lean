import JobPipeline.Graph.Check
import JobPipeline.Job.Config

/-
A job: its configuration and the task graph it owns.
-/
namespace JobPipeline

structure Job where
  config : JobConfig
  graph : TaskGraph
deriving DecidableEq, Repr

namespace Job

def ofType (type : JobType) : Job := ⟨JobConfig.ofType type, TaskGraph.empty⟩

/-- All complaints about a job: fields of its type first, then the graph's. -/
def errors (job : Job) : List ValidationError :=
  (job.config.specifics.entries.filterMap fun (key, field) =>
    if field.valid then none else some (.invalidJobField key field.value)) ++ job.graph.errors

end Job
end JobPipeline
