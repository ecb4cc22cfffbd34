import JobPipeline.Proofs.Number.Digits
import JobPipeline.Proofs.Simulation.Worked
import JobPipeline.Proofs.Snapshot.Restoring
import Mathlib.Data.List.Perm.Subperm
import Mathlib.Order.Bounds.Defs

/-
The name of a task that none was chosen for.

`TaskGraph.nextName` looks at the default names one after another, up to a bound that is
never met: different numbers have different names, so a graph that has all names up to some
number has that many tasks.  `Seeks` is the search without the bound.

The search asks only the index.  All that is wanted of the index is that it has the names of
the tasks and no others, which is so in every graph that was edited and in every graph that
was restored, whatever else is wrong with the snapshot.
-/
namespace JobPipeline
namespace TaskGraph

/-! ## Default names -/

variable {g : TaskGraph}

theorem Mirrored.hasName_iff (h : g.Mirrored) (name : String) :
    g.hasName name = true ↔ ∃ n ∈ g.nodes, n.name = name := by
  constructor
  · intro hname
    obtain ⟨id, hid⟩ := Option.isSome_iff_exists.1 hname
    obtain ⟨n, hn, hnamed, -⟩ := (h.indexed name id).1 hid
    exact ⟨n, hn, hnamed⟩
  · rintro ⟨n, hn, hnamed⟩
    exact Option.isSome_iff_exists.2 ⟨n.id, (h.indexed name n.id).2 ⟨n, hn, hnamed, rfl⟩⟩

end TaskGraph
end JobPipeline
