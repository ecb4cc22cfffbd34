import JobPipeline.Proofs.Document.Body
import JobPipeline.Proofs.Matching
import JobPipeline.Proofs.Source.Parsing
import JobPipeline.Proofs.Source.Reconstruction

/-
Writing a graph and reading it again.

The graph that is read has the written tasks and the edges between them, in their
order, and each field in its normal form.  A second writing finds every field in
normal form already and so gives the text of the first.
-/
namespace JobPipeline

open Relation (TransGen)
open Source (declarations allPairs Declares fieldTexts)

/-- A task as it is read back from the text of a graph. -/
structure Rewritten (g : TaskGraph) (n n' : Node) : Prop where
  name : n'.name = n.name
  kind : n'.kind = n.kind
  fields : ∀ layout ∈ n.kind.fields,
    n'.field layout.key = String.ofList (layout.normal n g)

namespace Node

variable {n : Node} {g : TaskGraph}

/-! ## The fields of a declaration -/

theorem keys_declaredFields (n : Node) (g : TaskGraph) (layouts : List FieldLayout) :
    ((n.declaredFields g layouts).map Prod.fst).Sublist (layouts.map FieldLayout.key) := by
  induction layouts with
  | nil => exact List.Sublist.refl _
  | cons layout layouts ih =>
    rw [declaredFields, List.filterMap_cons]
    split
    · exact ih.cons _
    · next pair heq =>
      have hkey : pair.1 = layout.key := by
        split at heq
        · cases heq
        · cases heq
          rfl
      rw [List.map_cons, List.map_cons, hkey]
      exact ih.cons_cons _

theorem mem_declaredFields {layouts : List FieldLayout} {layout : FieldLayout}
    (h : layout ∈ layouts)
    (hwritten : (layout.omitWhenEmpty && Text.blank (layout.effective n)) = false) :
    (layout.key, String.ofList (layout.normal n g)) ∈ n.declaredFields g layouts :=
  List.mem_filterMap.2 ⟨layout, h, by rw [hwritten]; rfl⟩

/-- The key of a field that is left out is not among those declared. -/
theorem key_not_mem_declaredFields {layout : FieldLayout} (h : layout ∈ n.kind.fields)
    (homitted : (layout.omitWhenEmpty && Text.blank (layout.effective n)) = true) :
    layout.key ∉ (n.declaredFields g n.kind.fields).map Prod.fst := by
  intro hmem
  obtain ⟨pair, hpair, hkey⟩ := List.mem_map.1 hmem
  obtain ⟨other, hother, heq⟩ := List.mem_filterMap.1 hpair
  split at heq
  · cases heq
  · next hwritten =>
    cases heq
    have hsame : other = layout := List.inj_on_of_nodup_map n.kind.nodup_keys hother h hkey
    rw [hsame, homitted] at hwritten
    exact hwritten rfl

/-- A blank that is left out is in its normal form. -/
theorem normal_of_omitted {layout : FieldLayout} (h : layout.Regular)
    (homitted : (layout.omitWhenEmpty && Text.blank (layout.effective n)) = true) :
    String.ofList (layout.normal n g) = layout.default := by
  rw [Bool.and_eq_true, Text.blank, ← Text.trim_eq_nil_iff] at homitted
  obtain ⟨hstyle, hdefault, _⟩ := h.omitted homitted.1
  rw [FieldLayout.normal, hstyle, hdefault]
  dsimp only
  rw [homitted.2]

theorem declaredKind?_declared (n : Node) (g : TaskGraph) :
    Source.declaredKind? (n.declared g) = some n.kind := by
  have htype : (n.declared g).lookup "type" = some n.kind.name := List.lookup_cons_self
  rw [Source.declaredKind?, htype, Option.bind_some, TaskKind.ofText?_name]

/-- A task that carries the declaration of another is that task rewritten. -/
theorem rewritten_of_declares {task : ParsedTask} {n' : Node}
    (hdeclares : Declares (n.name, n.declared g) task) (hcarries : Carries task n') :
    Rewritten g n n' := by
  have hkind : task.kind = n.kind := by
    have hdeclared := hdeclares.kind
    rw [declaredKind?_declared] at hdeclared
    exact (Option.some.inj hdeclared).symm
  have htexts : task.attributes = Dict.ofList ((n.declaredFields g n.kind.fields).map fun e =>
      (e.1, FieldText.verbatim e.2)) := hdeclares.attributes
  refine ⟨hcarries.name.trans hdeclares.name, hcarries.kind.trans hkind, fun layout hlayout => ?_⟩
  have hlookup := Dict.find?_insertAll_entries task.kind.defaults task.attributes FieldText.raw layout.key
  have hfield : n'.field layout.key = (((task.attributes.find? layout.key).map FieldText.raw).or
      (task.kind.defaults.find? layout.key)).getD "" := by
    rw [Node.field, hcarries.fields, ← hlookup]
    rfl
  have hdefault : n.kind.defaults.find? layout.key = some layout.default := by
    have hmem := List.mem_map_of_mem (f := fun f : FieldLayout => (f.key, f.default)) hlayout
    rw [TaskKind.defaults]
    refine Dict.find?_ofList_of_mem ?_ hmem
    rw [List.map_map]
    exact n.kind.nodup_keys
  have hkeys : ((n.declaredFields g n.kind.fields).map fun e =>
      (e.1, FieldText.verbatim e.2)).map Prod.fst = (n.declaredFields g n.kind.fields).map Prod.fst := by
    rw [List.map_map]
    rfl
  rw [hfield, htexts, hkind, hdefault]
  cases homitted : layout.omitWhenEmpty && Text.blank (layout.effective n) with
  | true =>
    rw [Dict.find?_ofList_of_not_mem (hkeys ▸ key_not_mem_declaredFields hlayout homitted),
      normal_of_omitted (TaskKind.regular_of_mem hlayout) homitted]
    rfl
  | false =>
    have hnodup := (keys_declaredFields n g n.kind.fields).nodup n.kind.nodup_keys
    rw [Dict.find?_ofList_of_mem (hkeys ▸ hnodup)
      (List.mem_map_of_mem (f := fun e => (e.1, FieldText.verbatim e.2))
        (mem_declaredFields hlayout homitted))]
    rfl

end Node
namespace TaskGraph

/-! ## Reading the text of a graph -/

/-- One graph is what is read back from the text of the other. -/
structure Rewrites (g g' : TaskGraph) : Prop where
  sound : g'.Sound
  nodes : List.Forall₂ (Rewritten g) g.written g'.nodes
  edges : g'.edges.map Edge.named = g.writtenEdges.map Edge.named

theorem declarations_items (g : TaskGraph) :
    declarations g.items = g.written.map fun n => (n.name, n.declared g) := by
  rw [items, declarations, List.filterMap_append, List.filterMap_map, List.filterMap_map]
  have hedges : g.writtenEdges.filterMap
      (Source.Item.declaration? ∘ fun e => Source.Item.chain [e.sourceName, e.targetName]) = [] :=
    List.filterMap_eq_nil_iff.2 fun _ _ => rfl
  rw [hedges, List.append_nil]
  exact congrFun List.filterMap_eq_map' g.written

theorem allPairs_items (g : TaskGraph) : allPairs g.items = g.writtenEdges.map Edge.named := by
  rw [items, allPairs, List.flatMap_append, List.flatMap_map, List.flatMap_map]
  have htasks : g.written.flatMap
      (fun n => (Source.Item.task n.name (n.declared g)).pairs) = [] :=
    List.flatMap_eq_nil_iff.2 fun _ _ => rfl
  rw [htasks, List.nil_append]
  exact List.map_eq_flatMap.symm

section Ends

variable {g : TaskGraph}

theorem WellFormed.nodup_writtenNames (h : g.WellFormed) : (g.written.map Node.name).Nodup :=
  ((List.filter_sublist (l := g.nodes)).map Node.name).nodup h.names

theorem WellFormed.ends_written (h : g.WellFormed) {e : Edge} (he : e ∈ g.writtenEdges) :
    e.sourceName ∈ g.written.map Node.name ∧ e.targetName ∈ g.written.map Node.name := by
  obtain ⟨hmem, hwritten⟩ := List.mem_filter.1 he
  have hnode : ∀ n ∈ g.nodes, n.id = e.source ∨ n.id = e.target → n ∈ g.written := by
    intro n hn hid
    refine List.mem_filter.2 ⟨hn, ?_⟩
    rw [isWritten, List.all_eq_true] at hwritten
    have hany := hwritten n.id (by rcases hid with hid | hid <;> simp [hid])
    rwa [node?_eq_some h.nodeIds hn] at hany
  obtain ⟨s, hs, hsid, hsource⟩ := h.sources e hmem
  obtain ⟨t, ht, htid, htarget⟩ := h.targets e hmem
  exact ⟨List.mem_map.2 ⟨s, hnode s hs (.inl hsid), hsource⟩,
    List.mem_map.2 ⟨t, hnode t ht (.inr htid), htarget⟩⟩

theorem WellFormed.nodup_named (h : g.WellFormed) : (g.writtenEdges.map Edge.named).Nodup := by
  have hedges : g.writtenEdges.Nodup := h.edgeIds.of_map.filter _
  refine hedges.map_on fun e he e' he' hnamed => ?_
  have hmem := (List.mem_filter.1 he).1
  have hmem' := (List.mem_filter.1 he').1
  obtain ⟨hsource, htarget⟩ := ParsedEdge.mk.inj hnamed
  obtain ⟨s, hs, hsid, hsname⟩ := h.sources e' hmem'
  obtain ⟨t, ht, htid, htname⟩ := h.targets e' hmem'
  refine h.eq_of_ends hmem hmem' ?_ ?_
  · rw [(h.sourceName_eq_iff hmem hs).1 (hsource.trans hsname.symm), hsid]
  · rw [(h.targetName_eq_iff hmem ht).1 (htarget.trans htname.symm), htid]

end Ends

/-- A parsed pipeline has the written tasks and the edges between them. -/
structure Reads (g : TaskGraph) (p : ParsedSource) : Prop where
  tasks : List.Forall₂ (fun n task => Declares (n.name, n.declared g) task) g.written p.tasks
  edges : p.edges = g.writtenEdges.map Edge.named

theorem Reads.names {g : TaskGraph} {p : ParsedSource} (h : g.Reads p) :
    p.tasks.map ParsedTask.name = g.written.map Node.name :=
  (map_eq_of_forall₂ h.tasks fun _ _ hdeclares => hdeclares.name.symm).symm

/-- A text that lays out the statements of a graph is read to what they say. -/
theorem Sound.parse_of_text {g : TaskGraph} (hg : g.Sound) {text : String}
    (htext : Source.StatementsText g.items text.toList) :
    ∃ p, Source.parse text = .ok p ∧ g.Reads p := by
  have h := hg.wellFormed
  have hnames : (declarations g.items).map Prod.fst = g.written.map Node.name := by
    rw [declarations_items, List.map_map]
    rfl
  obtain ⟨p, hparse, htasks, hedges⟩ := Source.parse_of_statementsText htext
    (hnames ▸ h.nodup_writtenNames)
    (by
      intro d hd
      rw [declarations_items] at hd
      obtain ⟨n, _, rfl⟩ := List.mem_map.1 hd
      rw [Node.declaredKind?_declared]
      rfl)
    (by
      intro e he
      rw [allPairs_items] at he
      obtain ⟨edge, hedge, rfl⟩ := List.mem_map.1 he
      rw [hnames]
      exact h.ends_written hedge)
  rw [declarations_items, List.forall₂_map_left_iff] at htasks
  refine ⟨p, hparse, htasks, ?_⟩
  rw [hedges, allPairs_items]
  have hnodup : ([] ++ g.writtenEdges.map Edge.named).Nodup := h.nodup_named
  exact Source.foldl_keepFirst hnodup

/-- A text that lays out the statements of a graph is read to the graph rewritten. -/
theorem Sound.rewrites_of_text {g : TaskGraph} (hg : g.Sound) {text : String}
    (htext : Source.StatementsText g.items text.toList) :
    ∃ g', ofSource text = .ok g' ∧ g.Rewrites g' := by
  have h := hg.wellFormed
  obtain ⟨p, hparse, hreads⟩ := hg.parse_of_text htext
  have hkept := hreads.edges
  have hsame := hreads.names.symm
  have hvalid : ∀ t ∈ p.tasks, Identifier.isValid t.name = true := by
    intro t ht
    have hname : t.name ∈ g.written.map Node.name := hsame ▸ List.mem_map_of_mem ht
    obtain ⟨n, hn, hname⟩ := List.mem_map.1 hname
    rw [← hname]
    exact h.validNames n (List.mem_filter.1 hn).1
  have hends : ∀ e ∈ p.edges, e.source ∈ p.tasks.map ParsedTask.name ∧
      e.target ∈ p.tasks.map ParsedTask.name := by
    intro e he
    rw [hkept] at he
    obtain ⟨edge, hedge, rfl⟩ := List.mem_map.1 he
    rw [← hsame]
    exact h.ends_written hedge
  have hacyclic : ∀ a, ¬TransGen (Leads (g.writtenEdges.map Edge.named)) a a :=
    h.acyclic_by_names fun e he => (List.mem_filter.1 he).1
  obtain ⟨g', hgraph, hg', hcarries, hnamed⟩ := ParsedSource.graph_eq (hsame ▸ h.nodup_writtenNames)
    hvalid hends (hkept ▸ h.nodup_named) (hkept ▸ hacyclic)
  refine ⟨g', ?_, hg', forall₂_trans hreads.tasks hcarries fun _ _ _ => Node.rewritten_of_declares,
    hnamed.trans hkept⟩
  rw [ofSource, hparse]
  exact hgraph

theorem Sound.rewrites {g : TaskGraph} (hg : g.Sound) (hbalanced : ∀ n ∈ g.written, n.AnglesBalanced) :
    ∃ g', ofSource g.source = .ok g' ∧ g.Rewrites g' :=
  hg.rewrites_of_text (hg.wellFormed.statementsText_source hbalanced)

/-- The text of a graph is read back.  The tasks are those that are written, in
their order, each field of the catalog holds its normal form, and the edges are
those between these tasks. -/
theorem ofSource_source {g : TaskGraph} (hg : g.Built) (hbalanced : ∀ n ∈ g.nodes, n.AnglesBalanced) :
    ∃ g', ofSource g.source = .ok g' ∧
      g'.nodes.map (fun n => (n.name, n.kind)) = g.written.map (fun n => (n.name, n.kind)) ∧
      List.Forall₂ (fun n n' => ∀ layout ∈ n.kind.fields,
        n'.field layout.key = String.ofList (layout.normal n g)) g.written g'.nodes ∧
      g'.edges.map Edge.named = g.writtenEdges.map Edge.named := by
  obtain ⟨g', hsource, h⟩ := hg.sound.rewrites fun n hn => hbalanced n (List.mem_filter.1 hn).1
  refine ⟨g', hsource, ?_, h.nodes.imp fun _ _ hn => hn.fields, h.edges⟩
  exact (map_eq_of_forall₂ h.nodes fun _ _ hn => by rw [hn.name, hn.kind]).symm

/-- A sum of a fetched value and of an item with angle brackets, and a task that
is not written. -/
def sumGraph : TaskGraph :=
  empty.afterAll [.addNamed .bridge "fetch" .origin none, .addNamed .sum "total" .origin none,
    .addNamed .merge "rest" .origin none, .connectNamed "fetch" "total",
    .connectNamed "total" "rest", .setFields "node_2" [("values", "[fetch, <1>]")]]

theorem ofSource_source_sumGraph :
    sumGraph.Built ∧ (∀ n ∈ sumGraph.nodes, n.AnglesBalanced) ∧
      ∃ g', ofSource sumGraph.source = .ok g' ∧
        g'.nodes.map (fun n => (n.name, n.kind)) = [("fetch", .bridge), ("total", .sum)] ∧
        g'.edges.map Edge.named = [⟨"fetch", "total"⟩] := by
  have hbuilt : sumGraph.Built := ⟨_, rfl⟩
  have hbalanced : ∀ n ∈ sumGraph.nodes, n.AnglesBalanced := by decide
  refine ⟨hbuilt, hbalanced, ?_⟩
  obtain ⟨g', hsource, hnodes, _, hedges⟩ := ofSource_source hbuilt hbalanced
  exact ⟨g', hsource, hnodes.trans (by decide), hedges.trans (by decide)⟩

end TaskGraph
end JobPipeline
