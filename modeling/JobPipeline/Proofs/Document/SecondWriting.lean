import JobPipeline.Proofs.Document.RoundTrip

/-
A text that was written from a graph, read and written again is the same text.

The graph that is read has lost the tasks that are not written, so it has fewer
names and a task of it may have fewer sources.  Neither shows: an item that was a
name has become a token, and so have the sources that stood in for an empty list.
The rules for fields look at trimmed values and at angle brackets, which the
normal form keeps, so the lines keep their flags as well.
-/
namespace JobPipeline

namespace TaskGraph

variable {g g' : TaskGraph}

theorem Rewrites.hasName (hg : g.Sound) (h : g.Rewrites g') (name : String)
    (hname : g'.hasName name = true) : g.hasName name = true := by
  have hsame : g.written.map Node.name = g'.nodes.map Node.name :=
    map_eq_of_forall₂ h.nodes fun _ _ hn => hn.name.symm
  obtain ⟨id, hid⟩ := Option.isSome_iff_exists.1 hname
  obtain ⟨n', hn', rfl, _⟩ := (h.sound.wellFormed.indexed name id).1 hid
  have hmem : n'.name ∈ g.written.map Node.name := hsame ▸ List.mem_map_of_mem hn'
  obtain ⟨n, hn, heq⟩ := List.mem_map.1 hmem
  have hid : g.idOf? n.name = some n.id := hg.wellFormed.idOf?_of_mem (List.mem_filter.1 hn).1
  rw [← heq]
  show (g.idOf? n.name).isSome = true
  rw [hid]
  rfl

theorem Rewrites.incoming_eq_nil (hg : g.Sound) (h : g.Rewrites g') {n n' : Node} (hn : n ∈ g.written)
    (hn' : n' ∈ g'.nodes) (hname : n'.name = n.name) (hnone : n.incoming = []) :
    n'.incoming = [] := by
  have hmem : n ∈ g.nodes := (List.mem_filter.1 hn).1
  rw [h.sound.wellFormed.incoming n' hn', sourceNames, List.map_eq_nil_iff, List.filter_eq_nil_iff]
  intro e' he' htarget
  have hnamed : e'.named ∈ g.writtenEdges.map Edge.named := h.edges ▸ List.mem_map_of_mem he'
  obtain ⟨e, he, heq⟩ := List.mem_map.1 hnamed
  have hedge : e ∈ g.edges := (List.mem_filter.1 he).1
  have hends : e.targetName = n.name := by
    rw [← hname, ← (h.sound.wellFormed.targetName_eq_iff he' hn').2 (by simpa using htarget)]
    exact congrArg ParsedEdge.target heq
  rw [hg.wellFormed.incoming n hmem, sourceNames, List.map_eq_nil_iff, List.filter_eq_nil_iff] at hnone
  refine hnone e hedge ?_
  simpa using (hg.wellFormed.targetName_eq_iff hedge hmem).1 hends

end TaskGraph

namespace FieldLayout

variable {layout : FieldLayout} {n n' : Node} {g g' : TaskGraph}

/-- A field in normal form is left out where the field was. -/
theorem omitted_of_field (h : layout.Regular)
    (hfield : n'.field layout.key = String.ofList (layout.normal n g)) :
    (layout.omitWhenEmpty && Text.blank (layout.effective n')) =
      (layout.omitWhenEmpty && Text.blank (layout.effective n)) := by
  cases homit : layout.omitWhenEmpty with
  | false => rfl
  | true =>
    have hstyle := (h.omitted homit).1
    have heffective := effective_of_field h hfield
    rw [normal, hstyle] at heffective
    have hiff : Text.blank (layout.effective n') = true ↔ Text.blank (layout.effective n) = true := by
      rw [Text.blank, Text.blank, ← Text.trim_eq_nil_iff, ← Text.trim_eq_nil_iff, heffective,
        Text.trim_trim]
    rw [Bool.true_and, Bool.true_and, Bool.eq_iff_iff]
    exact hiff

theorem attribute?_of_field (h : layout.Regular)
    (hwords : ∀ name ∈ n.incoming, Identifier.isWord name.toList = true)
    (hfield : n'.field layout.key = String.ofList (layout.normal n g))
    (hnames : ∀ name, g'.hasName name = true → g.hasName name = true)
    (hincoming : n.incoming = [] → n'.incoming = []) :
    layout.attribute? n' g' = layout.attribute? n g := by
  rw [attribute?, attribute?, omitted_of_field h hfield, written_eq, written_eq,
    normal_of_field h hwords hfield hnames hincoming]

theorem errors_eq (layout : FieldLayout) (n : Node) :
    layout.errors n.fields =
      (match layout.rule.complaint? (Text.trim (n.field layout.key).toList) with
        | some message => [⟨layout.key, message⟩]
        | none => []) ++
      (if layout.style.isArray && !anglesBalanced (Text.trim (n.field layout.key).toList) then
        [⟨layout.key, "must not contain unbalanced '<' or '>'"⟩]
      else []) := rfl

/-- The rule of a field says the same of its normal form. -/
theorem errors_of_field (h : layout.Regular)
    (hwords : ∀ name ∈ n.incoming, Identifier.isWord name.toList = true)
    (hfield : n'.field layout.key = String.ofList (layout.normal n g)) :
    layout.errors n'.fields = layout.errors n.fields := by
  have hcomplaint : layout.rule.complaint? (Text.trim (n'.field layout.key).toList) =
      layout.rule.complaint? (Text.trim (n.field layout.key).toList) := by
    by_cases hfree : layout.rule = .free
    · rw [hfree]
      rfl
    · obtain ⟨hstyle, hdefault⟩ := h.rule hfree
      rw [hfield, String.toList_ofList, normal, hstyle]
      dsimp only
      rw [Text.trim_trim, effective_eq_field hdefault]
  have hangles : (layout.style.isArray && !anglesBalanced (Text.trim (n'.field layout.key).toList)) =
      (layout.style.isArray && !anglesBalanced (Text.trim (n.field layout.key).toList)) := by
    cases harray : layout.style.isArray with
    | false => rfl
    | true =>
      have hsame : Field.angles (Text.trim (n'.field layout.key).toList) =
          Field.angles (Text.trim (n.field layout.key).toList) := by
        rw [Field.angles_trim, Field.angles_trim, hfield, String.toList_ofList,
          angles_normal h harray hwords]
      rw [Field.anglesBalanced_congr hsame]
  rw [errors_eq, errors_eq, hcomplaint, hangles]

end FieldLayout

namespace Node

variable {n n' : Node} {g g' : TaskGraph}

theorem isValid_of_rewritten (hwords : ∀ name ∈ n.incoming, Identifier.isWord name.toList = true)
    (h : Rewritten g n n') : n'.isValid = n.isValid := by
  have herrors : n'.fieldErrors = n.fieldErrors := by
    rw [fieldErrors, fieldErrors, h.kind, TaskKind.fieldErrors, TaskKind.fieldErrors]
    rw [List.flatMap_def, List.flatMap_def]
    refine congrArg _ (List.map_congr_left fun layout hlayout => ?_)
    exact FieldLayout.errors_of_field (TaskKind.regular_of_mem hlayout) hwords (h.fields layout hlayout)
  rw [isValid, herrors, isValid]

/-- Lines of attributes tell a task by its name and by its validity only. -/
theorem attributeLines_congr (hname : n'.name = n.name) (hvalid : n'.isValid = n.isValid)
    (attributes : List (List Char)) : n'.attributeLines attributes = n.attributeLines attributes := by
  induction attributes with
  | nil => rfl
  | cons first rest ih => rw [attributeLines, attributeLines, ih, hname, hvalid]

theorem block_of_rewritten (hwords : ∀ name ∈ n.incoming, Identifier.isWord name.toList = true)
    (h : Rewritten g n n') (hnames : ∀ name, g'.hasName name = true → g.hasName name = true)
    (hincoming : n.incoming = [] → n'.incoming = []) : n'.block g' = n.block g := by
  have hattributes : (n'.kind.fields.filterMap fun layout => layout.attribute? n' g') =
      n.kind.fields.filterMap fun layout => layout.attribute? n g := by
    rw [h.kind]
    refine List.filterMap_congr fun layout hlayout => ?_
    exact FieldLayout.attribute?_of_field (TaskKind.regular_of_mem hlayout) hwords
      (h.fields layout hlayout) hnames hincoming
  have hvalid := isValid_of_rewritten hwords h
  rw [block, block, hattributes, h.name, h.kind, hvalid]
  split
  · rfl
  · rw [attributeLines_congr h.name hvalid]

end Node

namespace TaskGraph

variable {g g' : TaskGraph}

theorem Rewrites.written_eq (h : g.Rewrites g') : g'.written = g'.nodes := by
  have hkinds : g.written.map Node.kind = g'.nodes.map Node.kind :=
    map_eq_of_forall₂ h.nodes fun _ _ hn => hn.kind.symm
  refine List.filter_eq_self.2 fun n' hn' => ?_
  have hmem : n'.kind ∈ g.written.map Node.kind := hkinds ▸ List.mem_map_of_mem hn'
  obtain ⟨n, hn, heq⟩ := List.mem_map.1 hmem
  rw [← heq]
  exact (List.mem_filter.1 hn).2

theorem Rewrites.writtenEdges_eq (h : g.Rewrites g') : g'.writtenEdges = g'.edges := by
  have hall : ∀ n ∈ g'.nodes, n.kind.isWritten = true := fun n hn => by
    rw [← h.written_eq] at hn
    exact (List.mem_filter.1 hn).2
  refine List.filter_eq_self.2 fun e he => ?_
  obtain ⟨s, hs, hsid, _⟩ := h.sound.wellFormed.sources e he
  obtain ⟨t, ht, htid, _⟩ := h.sound.wellFormed.targets e he
  rw [isWritten, ← hsid, ← htid]
  have hids := h.sound.wellFormed.nodeIds
  simp [node?_eq_some hids hs, node?_eq_some hids ht, hall s hs, hall t ht]

/-- The lines of a graph that was read are those of the graph it was written
from. -/
theorem Rewrites.bodyLines_eq (hg : g.Sound) (h : g.Rewrites g') : g'.bodyLines = g.bodyLines := by
  have hblocks : g.written.map (fun n => n.block g) = g'.nodes.map fun n => n.block g' := by
    refine map_eq_of_forall₂ (forall₂_mem h.nodes) fun n n' hn => ?_
    obtain ⟨⟨hmem, hmem'⟩, hrewritten⟩ := hn
    have hwords := hg.wellFormed.isWord_incoming (List.mem_filter.1 hmem).1
    exact (Node.block_of_rewritten hwords hrewritten (h.hasName hg)
      (h.incoming_eq_nil hg hmem hmem' hrewritten.name)).symm
  have hedges : g.writtenEdges.map edgeLine = g'.edges.map edgeLine := by
    have hline : edgeLine = (fun e : ParsedEdge => ⟨e.source ++ " -> " ++ e.target, none, true⟩) ∘
        Edge.named := rfl
    rw [hline, ← List.map_map, ← List.map_map, h.edges]
  rw [TaskGraph.bodyLines_eq, TaskGraph.bodyLines_eq, h.written_eq, h.writtenEdges_eq, hedges,
    List.flatMap_def, List.flatMap_def, hblocks]

/-- Whatever the configuration, the job of a graph and the job of the graph read
back from its text are the same lines, flags included. -/
theorem compile_ofSource_source {g : TaskGraph} (hg : g.Built)
    (hbalanced : ∀ n ∈ g.nodes, n.AnglesBalanced) :
    ∃ g', ofSource g.source = .ok g' ∧
      ∀ config, (⟨config, g'⟩ : Job).compile = (⟨config, g⟩ : Job).compile := by
  obtain ⟨g', hsource, h⟩ := hg.sound.rewrites fun n hn => hbalanced n (List.mem_filter.1 hn).1
  refine ⟨g', hsource, fun config => ?_⟩
  rw [Job.compile, Job.compile, h.bodyLines_eq hg.sound]

theorem compile_ofSource_source_sumGraph :
    sumGraph.Built ∧ (∀ n ∈ sumGraph.nodes, n.AnglesBalanced) ∧
      ∃ g', ofSource sumGraph.source = .ok g' ∧
        ∀ config, (⟨config, g'⟩ : Job).compile = (⟨config, sumGraph⟩ : Job).compile := by
  have hbuilt : sumGraph.Built := ⟨_, rfl⟩
  have hbalanced : ∀ n ∈ sumGraph.nodes, n.AnglesBalanced := by decide
  exact ⟨hbuilt, hbalanced, compile_ofSource_source hbuilt hbalanced⟩

end TaskGraph
end JobPipeline
