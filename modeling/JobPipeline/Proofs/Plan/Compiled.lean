import JobPipeline.Proofs.Document.RoundTrip
import JobPipeline.Proofs.Field.Tokens
import JobPipeline.Proofs.Plan.Inputs

/-
The plan of a compiled job.

What a task waits for can be told from the graph: the tasks that lead to it, and
those that a token of its attributes names.  The plan has an order of the tasks
that keeps to this, where there is one, and its error names the others.
-/
namespace JobPipeline

open Relation (ReflTransGen TransGen)

namespace TaskGraph

/-- An edge leads from one written task to another, or an attribute of the other
holds a token of the first. -/
inductive Waits (g : TaskGraph) : String → String → Prop
  | edge {e : Edge} : e ∈ g.writtenEdges → Waits g e.sourceName e.targetName
  | token {m n : Node} {a : String × String} {r : Reference} :
      m ∈ g.written → n ∈ g.written → m.name ≠ n.name → a ∈ n.declared g →
      r ∈ Field.findReferences a.2 → r.id = m.name → Waits g m.name n.name

theorem waits_iff {g : TaskGraph} {u v : String} :
    g.Waits u v ↔ (∃ e ∈ g.writtenEdges, e.sourceName = u ∧ e.targetName = v) ∨
      ∃ n ∈ g.written, n.name = v ∧ u ∈ g.written.map Node.name ∧ u ≠ v ∧
        ∃ a ∈ n.declared g, ∃ r ∈ Field.findReferences a.2, r.id = u := by
  constructor
  · rintro (he | ⟨hm, hn, hne, ha, hr, hid⟩)
    · exact .inl ⟨_, he, rfl, rfl⟩
    · exact .inr ⟨_, hn, rfl, List.mem_map_of_mem hm, hne, _, ha, _, hr, hid⟩
  · rintro (⟨e, he, rfl, rfl⟩ | ⟨n, hn, rfl, hu, hne, a, ha, r, hr, hid⟩)
    · exact .edge he
    · obtain ⟨m, hm, rfl⟩ := List.mem_map.1 hu
      exact .token hm hn hne ha hr hid

instance (g : TaskGraph) (u v : String) : Decidable (g.Waits u v) := decidable_of_iff _ waits_iff.symm

variable {g : TaskGraph} {p : ParsedSource}

theorem dollar_not_mem_name (kind : TaskKind) : '$' ∉ kind.name.toList := by
  have hall : ∀ kind ∈ TaskKind.all, '$' ∉ kind.name.toList := by decide
  exact hall kind (TaskKind.mem_all kind)

theorem mem_referenceIds_of_declares {n : Node} {task : ParsedTask}
    (h : Source.Declares (n.name, n.declared g) task) {name : String} :
    name ∈ Plan.referenceIds task ↔
      ∃ a ∈ n.declared g, ∃ r ∈ Field.findReferences a.2, r.id = name := by
  have hkeys := (Node.keys_declaredFields n g n.kind.fields).nodup n.kind.nodup_keys
  have htype : ¬∃ r ∈ Field.findReferences n.kind.name, r.id = name := by
    rw [Field.findReferences_eq_nil (dollar_not_mem_name n.kind)]
    simp
  rw [Plan.mem_referenceIds hkeys h.attributes, Node.declared, List.exists_mem_cons_iff]
  exact (or_iff_right htype).symm

theorem Reads.needs_eq (h : g.WellFormed) (hp : g.Reads p) :
    Plan.Needs (Plan.instructions p) = g.Waits := by
  have hnames := hp.names
  funext u v
  rw [Plan.needs_iff (hnames ▸ h.nodup_writtenNames), hp.edges]
  apply propext
  constructor
  · rintro ⟨task, htask, rfl, hedge | ⟨hid, hadded⟩⟩
    · obtain ⟨e, he, hnamed⟩ := List.mem_map.1 hedge
      obtain ⟨rfl, htarget⟩ := ParsedEdge.mk.inj hnamed
      rw [← htarget]
      exact .edge he
    · obtain ⟨n, hn, hdeclares⟩ := forall₂_right hp.tasks htask
      have hname : task.name = n.name := hdeclares.name
      have htoken := (mem_referenceIds_of_declares hdeclares).1 hid
      rw [Plan.Added, hnames, hname] at hadded
      rw [hname]
      exact waits_iff.2 (.inr ⟨n, hn, rfl, hadded.1, hadded.2, htoken⟩)
  · rintro (he | ⟨hm, hn, hne, ha, hr, hid⟩)
    · have htarget := (h.ends_written he).2
      rw [← hnames] at htarget
      obtain ⟨task, htask, hname⟩ := List.mem_map.1 htarget
      exact ⟨task, htask, hname, .inl (List.mem_map_of_mem he)⟩
    · obtain ⟨task, htask, hdeclares⟩ := forall₂_left hp.tasks hn
      have hname : task.name = _ := hdeclares.name
      refine ⟨task, htask, hname, .inr ⟨(mem_referenceIds_of_declares hdeclares).2 ⟨_, ha, _, hr, hid⟩, ?_⟩⟩
      rw [Plan.Added, hnames, hname]
      exact ⟨List.mem_map_of_mem hm, hne⟩

/-- The name of a task that is written. -/
def namesWritten (g : TaskGraph) (name : String) : Bool :=
  (g.named? name).any fun m => m.kind.isWritten

theorem WellFormed.isWritten_edge (h : g.WellFormed) {e : Edge} (he : e ∈ g.edges) {n : Node}
    (hn : n ∈ g.written) (htarget : e.target = n.id) :
    g.isWritten e = g.namesWritten e.sourceName := by
  obtain ⟨hmem, hwritten⟩ := List.mem_filter.1 hn
  have hnode : g.named? e.sourceName = g.node? e.source := by
    rw [named?, h.idOf?_sourceName he]
    rfl
  rw [isWritten, namesWritten, hnode, htarget]
  simp [node?_eq_some h.nodeIds hmem, hwritten]

theorem Reads.sourcesOf (h : g.WellFormed) (hp : g.Reads p) {n : Node} (hn : n ∈ g.written) :
    p.sourcesOf n.name = n.incoming.filter g.namesWritten := by
  have hmem : n ∈ g.nodes := (List.mem_filter.1 hn).1
  have hsame : (g.edges.filter g.isWritten).filter (fun e => e.targetName = n.name) =
      (g.edges.filter g.isWritten).filter fun e => e.target = n.id := by
    apply List.filter_congr
    intro e he
    exact decide_eq_decide.2 (h.targetName_eq_iff (List.mem_filter.1 he).1 hmem)
  rw [h.incoming n hmem, ParsedSource.sourcesOf, hp.edges, writtenEdges, List.filter_map, List.map_map]
  show ((g.edges.filter g.isWritten).filter fun e => e.targetName = n.name).map Edge.sourceName = _
  rw [hsame, ← sourceNames_filter g.namesWritten fun e he => h.isWritten_edge he hn]
  rfl

end TaskGraph

/-! ## The text of a job -/

namespace JobConfig

theorem inBody_textLine (key : String) (value : Option String) :
    ∀ line ∈ textLine key value, line.inBody = false := by
  rw [textLine.eq_def]
  split
  · simp
  · split <;> simp [preambleLine]

theorem inBody_specificLine (config : JobConfig) (layout : JobFieldLayout) :
    ∀ line ∈ config.specificLine layout, line.inBody = false := by
  rw [specificLine]
  cases layout.style with
  | cronSchedule | quoted => simp [preambleLine]
  | quotedOptional | bare =>
    dsimp only
    split <;> simp [preambleLine]

theorem inBody_preamble (config : JobConfig) : ∀ line ∈ config.preamble, line.inBody = false := by
  intro line hline
  rw [preamble] at hline
  simp only [List.mem_append, List.mem_flatMap, or_assoc] at hline
  rcases hline with h | h | h | h | h | h | ⟨layout, _, h⟩
  · revert h
    simp +contextual [preambleLine, or_imp]
  · exact inBody_textLine _ _ line h
  · exact inBody_textLine _ _ line h
  · revert h
    cases config.gasLimit <;> simp +contextual [preambleLine]
  · exact inBody_textLine _ _ line h
  · revert h
    cases config.forwardingAllowed <;> simp +contextual [preambleLine]
  · exact config.inBody_specificLine layout line h

end JobConfig

theorem Node.inBody_attributeLines (n : Node) (attributes : List (List Char)) :
    ∀ line ∈ n.attributeLines attributes, line.inBody = true := by
  induction attributes with
  | nil => simp [attributeLines]
  | cons first rest ih =>
    intro line hline
    rw [attributeLines, List.mem_append] at hline
    rcases hline with h | h
    · obtain ⟨text, _, rfl⟩ := List.mem_map.1 h
      rfl
    · exact ih line h

theorem TaskGraph.inBody_bodyLines (g : TaskGraph) : ∀ line ∈ g.bodyLines, line.inBody = true := by
  have hblock : ∀ n : Node, ∀ line ∈ n.block g, line.inBody = true := by
    intro n line hline
    rw [Node.block] at hline
    split at hline
    · rw [List.mem_singleton.1 hline]
      rfl
    · rcases List.mem_cons.1 hline with rfl | hline
      · rfl
      · exact n.inBody_attributeLines _ line hline
  intro line hline
  rw [bodyLines_eq, List.mem_append] at hline
  rcases hline with h | h
  · obtain ⟨n, _, h⟩ := List.mem_flatMap.1 h
    exact hblock n line h
  · cases hedges : g.writtenEdges with
    | nil =>
      rw [hedges] at h
      cases h
    | cons e edges =>
      rw [hedges] at h
      rcases List.mem_cons.1 h with rfl | h
      · rfl
      · obtain ⟨edge, _, rfl⟩ := List.mem_map.1 h
        rfl

/-- The pipeline text of a compiled job is that of its graph. -/
theorem Job.source_compile (job : Job) : job.compile.source = job.graph.source := by
  have hpreamble : job.config.preamble.filter DocumentLine.inBody = [] :=
    List.filter_eq_nil_iff.2 fun line hline => by
      rw [job.config.inBody_preamble line hline]
      decide
  have hbody : job.graph.bodyLines.filter DocumentLine.inBody = job.graph.bodyLines :=
    List.filter_eq_self.2 job.graph.inBody_bodyLines
  rw [Document.source, compile, List.filter_append, List.filter_append, List.filter_append, hpreamble,
    hbody]
  simp [TaskGraph.source]

namespace TaskGraph

/-! ## The plan -/

/-- A plan with every written task once, behind all that it waits for, and given the
results of the written tasks that lead to it. -/
structure Planned (g : TaskGraph) (plan : Plan) : Prop where
  names : plan.order.Perm (g.written.map Node.name)
  nodup : plan.order.Nodup
  before : ∀ u v, g.Waits u v →
    ∃ i j, plan.position? u = some i ∧ plan.position? v = some j ∧ i < j
  propagated : ∀ step ∈ plan.tasks, ∃ n ∈ g.written, n.name = step.id ∧
    step.propagated = n.incoming.filter g.namesWritten

theorem Sound.parse_source {g : TaskGraph} (hg : g.Sound)
    (hbalanced : ∀ n ∈ g.nodes, n.AnglesBalanced) :
    ∃ p, Source.parse g.source = .ok p ∧ g.Reads p :=
  hg.parse_of_text (hg.wellFormed.statementsText_source fun n hn =>
    hbalanced n (List.mem_filter.1 hn).1)

variable {g : TaskGraph} {p : ParsedSource} {ordered stuck : List Instruction}

theorem Reads.nodup_names (h : g.WellFormed) (hp : g.Reads p) :
    (p.tasks.map ParsedTask.name).Nodup := hp.names ▸ h.nodup_writtenNames

theorem Reads.ids_instructions (h : g.WellFormed) (hp : g.Reads p) :
    (Plan.instructions p).map Instruction.id = g.written.map Node.name :=
  (Plan.ids_instructions (hp.nodup_names h)).trans hp.names

theorem WellFormed.waits_written (h : g.WellFormed) {u v : String} (hwaits : g.Waits u v) :
    u ∈ g.written.map Node.name := by
  cases hwaits with
  | edge he => exact (h.ends_written he).1
  | token hm => exact List.mem_map_of_mem hm

/-- The tasks that are left are those on a cycle or behind one. -/
theorem Reads.mem_stuck_iff (h : g.WellFormed) (hp : g.Reads p)
    (harranged : Plan.Arranged [] (Plan.instructions p) ordered stuck) (v : String) :
    v ∈ stuck.map Instruction.id ↔ ∃ u, TransGen g.Waits u u ∧ ReflTransGen g.Waits u v := by
  have hids := hp.ids_instructions h
  rw [← hp.needs_eq h]
  refine harranged.mem_stuck_iff (hids ▸ h.nodup_writtenNames) (fun u v huv => ?_) v
  rw [hp.needs_eq h] at huv
  rw [hids]
  exact h.waits_written huv

theorem Reads.stuck_eq_nil_iff (h : g.WellFormed) (hp : g.Reads p)
    (harranged : Plan.Arranged [] (Plan.instructions p) ordered stuck) :
    stuck = [] ↔ ∀ u, ¬TransGen g.Waits u u := by
  have hstuck := hp.mem_stuck_iff h harranged
  constructor
  · intro hnil u hcycle
    have hmem := (hstuck u).2 ⟨u, hcycle, ReflTransGen.refl⟩
    rw [hnil] at hmem
    cases hmem
  · intro hacyclic
    refine List.eq_nil_iff_forall_not_mem.2 fun step hstep => ?_
    obtain ⟨u, hcycle, -⟩ := (hstuck step.id).1 (List.mem_map_of_mem hstep)
    exact hacyclic u hcycle

theorem Reads.planned (h : g.WellFormed) (hp : g.Reads p)
    (harranged : Plan.Arranged [] (Plan.instructions p) ordered []) : g.Planned ⟨ordered⟩ := by
  have hids := hp.ids_instructions h
  have hperm := harranged.perm
  rw [List.append_nil] at hperm
  have horder := hperm.map Instruction.id
  rw [hids] at horder
  refine ⟨horder, horder.nodup_iff.2 h.nodup_writtenNames, ?_, ?_⟩
  · intro u v huv
    rw [← hp.needs_eq h] at huv
    refine (harranged.before (hids ▸ h.nodup_writtenNames) huv ?_).2
    obtain ⟨step, hstep, rfl, _⟩ := huv
    exact List.mem_map_of_mem (hperm.mem_iff.2 hstep)
  · intro step hstep
    have hmem := hperm.mem_iff.1 hstep
    rw [Plan.instructions_eq (hp.nodup_names h)] at hmem
    obtain ⟨task, htask, rfl⟩ := List.mem_map.1 hmem
    obtain ⟨n, hn, hdeclares⟩ := forall₂_right hp.tasks htask
    have hname : task.name = n.name := hdeclares.name
    refine ⟨n, hn, hname.symm, ?_⟩
    rw [← hp.sourcesOf h hn, ← hname]
    exact Plan.propagated_inputsOf

end TaskGraph

namespace Job

/-- The plan of a compiled job exists if no tasks wait for one another.  Otherwise the
tasks on a cycle and those behind one are named. -/
theorem plan_compile {job : Job} (hg : job.graph.Built)
    (hbalanced : ∀ n ∈ job.graph.nodes, n.AnglesBalanced) :
    ((∃ plan, Plan.ofSource job.compile.source = .ok plan) ↔
      ∀ u, ¬TransGen job.graph.Waits u u) ∧
    (∀ plan, Plan.ofSource job.compile.source = .ok plan → job.graph.Planned plan) ∧
    ((∃ u, TransGen job.graph.Waits u u) →
      ∃ names, Plan.ofSource job.compile.source = .error ⟨.cycle names, none⟩ ∧
        names.Sublist (job.graph.written.map Node.name) ∧
        ∀ v, v ∈ names ↔ ∃ u, TransGen job.graph.Waits u u ∧ ReflTransGen job.graph.Waits u v) := by
  have h := hg.sound.wellFormed
  obtain ⟨p, hparse, hp⟩ := hg.sound.parse_source hbalanced
  obtain ⟨ordered, stuck, harranged, hplan⟩ := Plan.ofParsed_eq (hp.nodup_names h)
  have hsource : Plan.ofSource job.compile.source = if stuck = [] then .ok ⟨ordered⟩
      else .error ⟨.cycle (stuck.map Instruction.id), none⟩ := by
    rw [source_compile, Plan.ofSource, hparse]
    exact hplan
  have hacyclic := hp.stuck_eq_nil_iff h harranged
  rw [hsource, ← hacyclic]
  by_cases hnil : stuck = []
  · subst hnil
    refine ⟨⟨fun _ => rfl, fun _ => ⟨_, if_pos rfl⟩⟩, ?_, ?_⟩
    · intro plan hok
      cases hok
      exact hp.planned h harranged
    · rintro ⟨u, hcycle⟩
      exact absurd hcycle (hacyclic.1 rfl u)
  · rw [if_neg hnil]
    refine ⟨⟨?_, fun h => absurd h hnil⟩, fun _ hok => (by cases hok), ?_⟩
    · rintro ⟨_, hok⟩
      cases hok
    rintro -
    refine ⟨_, rfl, ?_, hp.mem_stuck_iff h harranged⟩
    have hsub := harranged.sublist.map Instruction.id
    rwa [hp.ids_instructions h] at hsub

/-- Two tasks that wait for each other, and a sum with one of them as a bare item. -/
def loopJob : Job where
  config := JobConfig.ofType .directRequest
  graph := TaskGraph.empty.afterAll [.addNamed .http "fetch" .origin none,
    .addNamed .jsonParse "parse" .origin none, .addNamed .sum "total" .origin none,
    .setFields "node_1" [("url", "$(parse)")], .setFields "node_2" [("data", "$(fetch)")],
    .setFields "node_3" [("values", "[parse, 1]")]]

theorem plan_compile_loopJob :
    loopJob.graph.Built ∧ (∀ n ∈ loopJob.graph.nodes, n.AnglesBalanced) ∧
      ∃ names, Plan.ofSource loopJob.compile.source = .error ⟨.cycle names, none⟩ ∧
        "total" ∈ names := by
  have hbuilt : loopJob.graph.Built := ⟨_, rfl⟩
  have hbalanced : ∀ n ∈ loopJob.graph.nodes, n.AnglesBalanced := by decide
  refine ⟨hbuilt, hbalanced, ?_⟩
  have hfetch : loopJob.graph.Waits "fetch" "parse" := by decide +kernel
  have hparse : loopJob.graph.Waits "parse" "fetch" := by decide +kernel
  have htotal : loopJob.graph.Waits "parse" "total" := by decide +kernel
  have hcycle : TransGen loopJob.graph.Waits "parse" "parse" := (TransGen.single hparse).tail hfetch
  obtain ⟨names, hplan, -, hnames⟩ := (plan_compile hbuilt hbalanced).2.2 ⟨"parse", hcycle⟩
  exact ⟨names, hplan, (hnames "total").2 ⟨"parse", hcycle, ReflTransGen.single htotal⟩⟩

end Job
end JobPipeline
