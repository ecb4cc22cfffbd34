import JobPipeline.Proofs.Document.SecondWriting

/-
What the course of evaluation leaves alone.

A simulation moves tasks from state to state and leaves them with requests, results
and mocks.  The form of a graph is what is left of it without these: its names, edges
and fields, which are all that its text says.
-/
namespace JobPipeline

namespace Node

/-- A task without the traces of its evaluation. -/
def form (n : Node) : Node :=
  { n with mock := Mock.off, state := .idle, runResult := none, lastRequest := none }

@[simp] theorem form_id (n : Node) : n.form.id = n.id := rfl

@[simp] theorem form_name (n : Node) : n.form.name = n.name := rfl

@[simp] theorem form_kind (n : Node) : n.form.kind = n.kind := rfl

theorem id_of_form {m n : Node} (h : m.form = n.form) : m.id = n.id := by
  rw [← form_id m, h, form_id]

theorem name_of_form {m n : Node} (h : m.form = n.form) : m.name = n.name := by
  rw [← form_name m, h, form_name]

theorem kind_of_form {m n : Node} (h : m.form = n.form) : m.kind = n.kind := by
  rw [← form_kind m, h, form_kind]

/-- What the text shows of a task, apart from its edges. -/
structure Face where
  id : String
  name : String
  kind : TaskKind
  fields : Dict String
  incoming : List String

def face (n : Node) : Face := ⟨n.id, n.name, n.kind, n.fields, n.incoming⟩

end Node

namespace TaskGraph

/-! ## One task in the place of another -/

section Lists

variable {α β : Type} {found : α → Bool} {l : List α} {a b : α}

/-- What a change makes of the element that is found is all that counts. -/
theorem updateFirst_eq (h : l.find? found = some a) (f : α → α) :
    updateFirst found f l = updateFirst found (fun _ => f a) l := by
  induction l with
  | nil => cases h
  | cons c l ih =>
    rw [updateFirst, updateFirst]
    rw [List.find?_cons] at h
    split at h
    · next hfound =>
      obtain rfl := Option.some.inj h
      rw [if_pos hfound, if_pos hfound]
    · next hnot =>
      rw [if_neg (Bool.eq_false_iff.1 hnot), if_neg (Bool.eq_false_iff.1 hnot), ih h]

theorem map_updateFirst {f : α → β} (h : l.find? found = some a) (hf : f b = f a) :
    (updateFirst found (fun _ => b) l).map f = l.map f := by
  induction l with
  | nil => rfl
  | cons c l ih =>
    rw [updateFirst]
    rw [List.find?_cons] at h
    split at h
    · next hfound =>
      obtain rfl := Option.some.inj h
      rw [if_pos hfound, List.map_cons, List.map_cons, hf]
    · next hnot =>
      rw [if_neg (Bool.eq_false_iff.1 hnot), List.map_cons, List.map_cons, ih h]

theorem mem_updateFirst {c : α} (h : c ∈ updateFirst found (fun _ => b) l) : c = b ∨ c ∈ l := by
  induction l with
  | nil => cases h
  | cons d l ih =>
    rw [updateFirst] at h
    split at h
    · exact (List.mem_cons.1 h).imp_right (List.mem_cons_of_mem d)
    · rcases List.mem_cons.1 h with rfl | h
      · exact .inr List.mem_cons_self
      · exact (ih h).imp_right (List.mem_cons_of_mem d)

theorem find?_updateFirst (h : (l.find? found).isSome = true) (hb : found b = true) :
    (updateFirst found (fun _ => b) l).find? found = some b := by
  induction l with
  | nil => cases h
  | cons c l ih =>
    rw [updateFirst]
    split
    · rw [List.find?_cons, hb]
    · next hnot =>
      rw [List.find?_cons, Bool.eq_false_iff.2 hnot] at h
      rw [List.find?_cons, Bool.eq_false_iff.2 hnot]
      exact ih h

theorem find?_updateFirst_of_apart {other : α → Bool} (hb : other b = false)
    (hapart : ∀ c, found c = true → other c = false) :
    (updateFirst found (fun _ => b) l).find? other = l.find? other := by
  induction l with
  | nil => rfl
  | cons c l ih =>
    rw [updateFirst]
    split
    · next hfound => rw [List.find?_cons, List.find?_cons, hb, hapart c hfound]
    · rw [List.find?_cons, List.find?_cons, ih]

theorem updateFirst_updateFirst (ha : found a = true) :
    updateFirst found (fun _ => b) (updateFirst found (fun _ => a) l) =
      updateFirst found (fun _ => b) l := by
  induction l with
  | nil => rfl
  | cons c l ih =>
    rw [updateFirst, updateFirst]
    split
    · rw [updateFirst, if_pos ha]
    · next hnot => rw [updateFirst, if_neg hnot, ih]

theorem updateFirst_self (h : l.find? found = some a) : updateFirst found (fun _ => a) l = l := by
  induction l with
  | nil => rfl
  | cons c l ih =>
    rw [updateFirst]
    rw [List.find?_cons] at h
    split at h
    · next hfound => rw [if_pos hfound, Option.some.inj h]
    · next hnot => rw [if_neg (Bool.eq_false_iff.1 hnot), ih h]

/-- An element in the place of another counts in its place. -/
theorem countP_updateFirst (p : α → Bool) (h : l.find? found = some a) :
    (updateFirst found (fun _ => b) l).countP p + (if p a then 1 else 0) =
      l.countP p + (if p b then 1 else 0) := by
  induction l with
  | nil => cases h
  | cons c l ih =>
    rw [updateFirst]
    rw [List.find?_cons] at h
    split at h
    · next hfound =>
      obtain rfl := Option.some.inj h
      rw [if_pos hfound, List.countP_cons, List.countP_cons]
      omega
    · next hnot =>
      rw [if_neg (Bool.eq_false_iff.1 hnot), List.countP_cons, List.countP_cons]
      have := ih h
      omega

end Lists

variable {g : TaskGraph} {id : String} {m n : Node}

/-- A task takes the place of the one with its id. -/
def put (g : TaskGraph) (n : Node) : TaskGraph := g.updateNode n.id fun _ => n

@[simp] theorem idOf?_put (g : TaskGraph) (n : Node) (name : String) :
    (g.put n).idOf? name = g.idOf? name := rfl

theorem send_eq (h : g.node? id = some n) (event : NodeEvent) :
    g.send id event = (.ok (n.send event).2, g.put (n.send event).1) := by
  rw [send, h, put, Node.send_id, id_of_node? h, updateNode, updateNode]
  exact congrArg (fun nodes => (_, { g with nodes })) (updateFirst_eq h _)

theorem send_eq_of_none (h : g.node? id = none) (event : NodeEvent) :
    g.send id event = (.error (.unknownNode id), g) := by
  rw [send, h]

theorem node?_put_self (h : g.node? m.id = some n) : (g.put m).node? m.id = some m :=
  find?_updateFirst (Option.isSome_iff_exists.2 ⟨n, h⟩) (decide_eq_true rfl)

theorem node?_put_of_ne (h : id ≠ m.id) : (g.put m).node? id = g.node? id := by
  refine find?_updateFirst_of_apart (decide_eq_false (Ne.symm h)) fun c hc => ?_
  rw [of_decide_eq_true hc]
  exact decide_eq_false (Ne.symm h)

theorem put_put (h : n.id = m.id) : (g.put m).put n = g.put n := by
  rw [put, put, put, updateNode, updateNode, updateNode, h]
  refine congrArg (fun nodes => { g with nodes }) (updateFirst_updateFirst ?_)
  exact decide_eq_true rfl

theorem put_self (h : g.node? id = some n) : g.put n = g := by
  rw [put, updateNode, id_of_node? h]
  exact congrArg (fun nodes => { g with nodes }) (updateFirst_self h)

theorem mem_put {k : Node} (h : k ∈ (g.put m).nodes) : k = m ∨ k ∈ g.nodes := mem_updateFirst h

theorem named?_put (h : g.node? m.id = some n) (name : String) :
    (g.put m).named? name = if g.idOf? name = some m.id then some m else g.named? name := by
  rw [named?, named?, idOf?_put]
  cases hid : g.idOf? name with
  | none => rfl
  | some id =>
    by_cases heq : id = m.id
    · rw [if_pos (congrArg some heq), heq]
      exact node?_put_self h
    · rw [if_neg fun hsome => heq (Option.some.inj hsome)]
      exact node?_put_of_ne heq

/-! ## The form of a graph -/

/-- A graph without the traces of an evaluation. -/
def form (g : TaskGraph) : TaskGraph := { g with nodes := g.nodes.map Node.form }

theorem form_put (h : g.node? m.id = some n) (hform : m.form = n.form) : (g.put m).form = g.form := by
  rw [put, form, form, updateNode]
  exact congrArg (fun nodes => { g with nodes }) (map_updateFirst h hform)

theorem form_resetAll (g : TaskGraph) : g.resetAll.form = g.form := by
  rw [resetAll, form, form, List.map_map]
  rfl

theorem node?_form (g : TaskGraph) (id : String) : g.form.node? id = (g.node? id).map Node.form := by
  rw [node?, node?, form, List.find?_map]
  rfl

/-! ## What the text shows -/

section Shown

variable {f : Node → Node} (hf : ∀ n, (f n).face = n.face)
include hf

theorem isWritten_map (g : TaskGraph) (e : Edge) :
    isWritten { g with nodes := g.nodes.map f } e = g.isWritten e := by
  have hid : ∀ n, (f n).id = n.id := fun n => congrArg Node.Face.id (hf n)
  have hkind : ∀ n, (f n).kind = n.kind := fun n => congrArg Node.Face.kind (hf n)
  simp only [isWritten, node?, List.find?_map, Option.any_map, Function.comp_def, hid, hkind]

theorem block_map (g : TaskGraph) (n : Node) : (f n).block { g with nodes := g.nodes.map f } = n.block g := by
  have hname : (f n).name = n.name := congrArg Node.Face.name (hf n)
  have hkind : (f n).kind = n.kind := congrArg Node.Face.kind (hf n)
  have hfields : (f n).fields = n.fields := congrArg Node.Face.fields (hf n)
  have hincoming : (f n).incoming = n.incoming := congrArg Node.Face.incoming (hf n)
  have hvalid : (f n).isValid = n.isValid := by
    simp only [Node.isValid, Node.fieldErrors, hkind, hfields]
  have helements : elements { g with nodes := g.nodes.map f } = g.elements := rfl
  have hattribute (layout : FieldLayout) :
      layout.attribute? (f n) { g with nodes := g.nodes.map f } = layout.attribute? n g := by
    have heffective : layout.effective (f n) = layout.effective n := by
      rw [FieldLayout.effective, FieldLayout.effective, Node.field, Node.field, hfields]
    simp only [FieldLayout.attribute?, FieldLayout.written, heffective, helements, hincoming]
  simp only [Node.block, hattribute, hkind, hname, hvalid, Node.attributeLines_congr hname hvalid]

/-- The text of a graph shows nothing of its tasks but their faces. -/
theorem bodyLines_map (g : TaskGraph) :
    bodyLines { g with nodes := g.nodes.map f } = g.bodyLines := by
  let g' : TaskGraph := { g with nodes := g.nodes.map f }
  have hkind : ∀ n, (f n).kind = n.kind := fun n => congrArg Node.Face.kind (hf n)
  have hblocks : (g'.nodes.filter fun n => n.kind.isWritten).flatMap (fun n => n.block g') =
      (g.nodes.filter fun n => n.kind.isWritten).flatMap fun n => n.block g := by
    have hsame : ((fun n : Node => n.kind.isWritten) ∘ f) = fun n => n.kind.isWritten :=
      funext fun n => congrArg TaskKind.isWritten (hkind n)
    show ((g.nodes.map f).filter fun n => n.kind.isWritten).flatMap (fun n => n.block g') = _
    rw [List.filter_map, List.flatMap_map, hsame]
    exact List.flatMap_congr fun n _ => block_map hf g n
  have hedges : g'.edges.filter g'.isWritten = g.edges.filter g.isWritten :=
    List.filter_congr fun e _ => isWritten_map hf g e
  show bodyLines g' = _
  rw [bodyLines, bodyLines, hblocks, hedges]

end Shown

theorem bodyLines_form (g : TaskGraph) : g.form.bodyLines = g.bodyLines :=
  bodyLines_map (f := Node.form) (fun _ => rfl) g

/-- The text of a graph depends on its form only. -/
theorem source_of_form {g' : TaskGraph} (h : g'.form = g.form) : g'.source = g.source := by
  rw [source, source, ← bodyLines_form g', ← bodyLines_form g, h]

theorem compile_of_form {job job' : Job} (hconfig : job'.config = job.config)
    (hform : job'.graph.form = job.graph.form) : job'.compile = job.compile := by
  rw [Job.compile, Job.compile, hconfig, ← bodyLines_form, hform, bodyLines_form]

theorem idOf?_form (g : TaskGraph) (name : String) : g.form.idOf? name = g.idOf? name := rfl

theorem Sound.of_form {g' : TaskGraph} (h : g.Sound) (hform : g'.form = g.form) : g'.Sound := by
  obtain ⟨hnodes, hedges, hindex, hnodesAdded, hedgesAdded⟩ := TaskGraph.mk.inj hform
  have hlinks := congrArg (List.map Node.links) hnodes
  rw [List.map_map, List.map_map] at hlinks
  exact h.congr hlinks hedges hindex hnodesAdded hedgesAdded

end TaskGraph
end JobPipeline
