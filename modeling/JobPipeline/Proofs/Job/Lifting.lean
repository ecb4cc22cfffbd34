import JobPipeline.Proofs.Document.Quotes
import JobPipeline.Proofs.Graph.History
import JobPipeline.Proofs.Job.SpecText
import JobPipeline.Proofs.Plan.Compiled

/-
No text of a job gets out of its place in the spec.

The pipeline text is found by the line that opens it and the quotes that close it.  No setting can
forge the line and no value the quotes, so the import cuts the spec where it was put together,
whatever the names, the settings and the fields of the tasks say.
-/
namespace JobPipeline

open Import (tripleQuote)

namespace TaskGraph

/-- A pipeline text with lines has more than a line end. -/
theorem bodyLines_eq_nil_iff (g : TaskGraph) : g.bodyLines = [] ↔ g.source = "" := by
  constructor
  · intro h
    rw [source, h]
    rfl
  · intro h
    refine Decidable.byContradiction fun hne => ?_
    have hchars : Document.chars g.bodyLines = [] := by
      rw [← Document.toList_joined, ← source, h]
      rfl
    have hended : Document.ended g.bodyLines = ['\n'] := by
      rw [Document.ended_eq hne, hchars]
      rfl
    rw [ended_bodyLines] at hended
    cases hwritten : g.written with
    | cons n nodes =>
      have hmem : '[' ∈ ['\n'] := by
        rw [← hended, hwritten, List.flatMap_cons, Node.chars_block_head, Node.head]
        simp
      exact absurd hmem (by decide)
    | nil =>
      cases hedges : g.writtenEdges with
      | nil =>
        rw [bodyLines_eq, hwritten, hedges] at hne
        exact hne rfl
      | cons e edges =>
        have hmem : '>' ∈ ['\n'] := by
          rw [← hended, hedges]
          simp [below, Document.ended, edgeLine]
        exact absurd hmem (by decide)

end TaskGraph

namespace Job

/-- The pipeline text has no three quotes, and the import takes it out of the spec as it is: above
it are the settings, line by line, and an empty line. -/
theorem split_compile {job : Job} (hgraph : job.graph.Built) (hconfig : job.config.Configured)
    (hvalid : job.config.isValid = true) (hlists : ∀ n ∈ job.graph.nodes, n.ListsClear) :
    ¬tripleQuote <:+: job.compile.source.toList ∧
      Import.split job.compile.text.toList = (Document.ended job.config.preamble ++ ['\n'],
        some (if job.compile.source = "" then [] else job.compile.source.toList ++ ['\n'])) := by
  have hnone := hgraph.sound.wellFormed.noTriple_ended fun n hn => hlists n (List.mem_filter.1 hn).1
  have hpreamble : Document.ended job.config.preamble = job.config.settings.flatMap Toml.Setting.line :=
    job.config.lines_preamble
  have hbody : Document.ended job.graph.bodyLines =
      if job.graph.source = "" then [] else job.graph.source.toList ++ ['\n'] := by
    split
    · next hempty =>
      rw [(TaskGraph.bodyLines_eq_nil_iff _).2 hempty]
      rfl
    · next hne =>
      rw [Document.ended_eq (mt (TaskGraph.bodyLines_eq_nil_iff _).1 hne), TaskGraph.source,
        Document.toList_joined]
  rw [source_compile]
  refine ⟨(noTriple_iff _).1 ((TaskGraph.noTriple_ended_iff job.graph).1 hnone), ?_⟩
  rw [split_text hconfig hvalid hnone, hpreamble, hbody]

/-- The name and the fields of a task try to open and to close a pipeline text. -/
def forgedJob : Job where
  config :=
    { (JobConfig.ofType .directRequest).afterAll
        [("contractAddress", "0x0123456789abcdef0123456789ABCDEF01234567")] with
      name := some "a\nobservationSource = \"\"\"\nb"
      externalId := some "\"\"\""
      maxTaskDuration := some "\"\nobservationSource=\"\"\"" }
  graph := TaskGraph.empty.afterAll
    [.addNamed .http "fetch" .origin none, .addNamed .sum "total" .origin none,
      .connectNamed "fetch" "total", .setFields "node_1" [("url", "\"\"\"\nobservationSource = \"\"\"")],
      .setFields "node_2" [("values", "fetch, \"\", \"")]]

theorem split_compile_forged :
    (forgedJob.config.isValid = true ∧ ∀ n ∈ forgedJob.graph.nodes, n.ListsClear) ∧
      ¬tripleQuote <:+: forgedJob.compile.source.toList ∧
      Import.split forgedJob.compile.text.toList = (Document.ended forgedJob.config.preamble ++ ['\n'],
        some (forgedJob.compile.source.toList ++ ['\n'])) := by
  have hvalid : forgedJob.config.isValid = true := by decide +kernel
  have hlists : ∀ n ∈ forgedJob.graph.nodes, n.ListsClear := by decide +kernel
  have hbody : forgedJob.compile.source ≠ "" := by decide +kernel
  have hgraph : forgedJob.graph.Built := ⟨_, rfl⟩
  have hconfig : forgedJob.config.Configured := ⟨⟨_, rfl⟩, nofun⟩
  obtain ⟨hnone, hsplit⟩ := split_compile hgraph hconfig hvalid hlists
  rw [if_neg hbody] at hsplit
  exact ⟨⟨hvalid, hlists⟩, hnone, hsplit⟩

end Job
end JobPipeline
