import JobPipeline.Proofs.Graph.Renaming

/-
Every graph that can be built is well-formed.

A caller has only the edits below and begins with the empty graph.  An edit may
be refused, and the next one then works on the graph that the refusal left.
-/
namespace JobPipeline

/-- An edit with its arguments. -/
inductive Edit where
  | add (kind : TaskKind) (position : Position) (attachment : Option Attachment)
  | addNamed (kind : TaskKind) (name : String) (position : Position)
      (attachment : Option Attachment)
  | connect (source target : String)
  | connectNamed (source target : String)
  | disconnect (id : String)
  | rename (id new : String) (policy : RenamePolicy)
  | delete (id : String)
  | replaceKind (id : String) (kind : TaskKind)
  | setFields (id : String) (values : List (String × String))
  | setMock (id : String) (mock : Mock)
  | setPosition (id : String) (position : Position)
  | resetAll

namespace TaskGraph

/-- The graph that an edit leaves, whether it succeeds or fails. -/
def after (g : TaskGraph) : Edit → TaskGraph
  | .add kind position attachment => (g.add kind position attachment).2
  | .addNamed kind name position attachment => (g.addNamed kind name position attachment).2
  | .connect source target => (g.connect source target).2
  | .connectNamed source target => (g.connectNamed source target).2
  | .disconnect id => (g.disconnect id).2
  | .rename id new policy => (g.rename id new policy).2
  | .delete id => (g.delete id).2
  | .replaceKind id kind => (g.replaceKind id kind).2
  | .setFields id values => (g.setFields id values).2
  | .setMock id mock => (g.setMock id mock).2
  | .setPosition id position => (g.setPosition id position).2
  | .resetAll => g.resetAll

/-- The graph after a sequence of edits. -/
def afterAll (g : TaskGraph) (edits : List Edit) : TaskGraph := edits.foldl after g

/-- A graph that some sequence of edits makes of the empty one. -/
def Built (g : TaskGraph) : Prop := ∃ edits, g = empty.afterAll edits

theorem links_updateFirst (found : Node → Bool) {f : Node → Node} (hf : ∀ n, (f n).links = n.links)
    (nodes : List Node) :
    (updateFirst found f nodes).map Node.links = nodes.map Node.links := by
  induction nodes with
  | nil => rfl
  | cons n nodes ih =>
    rw [updateFirst]
    split
    · rw [List.map_cons, List.map_cons, hf]
    · rw [List.map_cons, List.map_cons, ih]

theorem Sound.change {g : TaskGraph} (h : g.Sound) (id : String) {f : Node → Node}
    (hf : ∀ n, (f n).links = n.links) : (g.change id f).2.Sound := by
  rw [TaskGraph.change]
  split
  · exact h.congr (links_updateFirst _ hf g.nodes) rfl rfl rfl rfl
  · exact h

/-- One edit keeps a graph sound. -/
theorem Sound.after {g : TaskGraph} (h : g.Sound) (edit : Edit) : (g.after edit).Sound := by
  cases edit with
  | add kind position attachment => exact h.addNamed kind g.nextName position attachment
  | addNamed kind name position attachment => exact h.addNamed kind name position attachment
  | connect source target => exact h.connect source target
  | connectNamed source target => exact h.connectNamed source target
  | disconnect id => exact h.disconnect id
  | rename id new policy => exact h.rename id new policy
  | delete id => exact h.delete id
  | replaceKind id kind => exact h.change id fun n => rfl
  | setFields id values => exact h.change id fun n => rfl
  | setMock id mock => exact h.change id fun n => rfl
  | setPosition id position => exact h.change id fun n => rfl
  | resetAll =>
    refine h.congr ?_ rfl rfl rfl rfl
    show (g.nodes.map fun n => (n.send .reset).1).map Node.links = _
    rw [List.map_map]
    rfl

/-- A sequence of edits keeps a graph sound. -/
theorem Sound.afterAll {g : TaskGraph} (h : g.Sound) (edits : List Edit) :
    (g.afterAll edits).Sound := by
  induction edits generalizing g with
  | nil => exact h
  | cons edit edits ih => exact ih (h.after edit)

theorem Built.sound {g : TaskGraph} (h : g.Built) : g.Sound := by
  obtain ⟨edits, rfl⟩ := h
  exact sound_empty.afterAll edits

theorem wellFormed_of_edits (edits : List Edit) : (empty.afterAll edits).WellFormed :=
  (sound_empty.afterAll edits).wellFormed

end TaskGraph
end JobPipeline
