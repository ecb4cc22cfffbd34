import JobPipeline.Proofs.Document.Retargeting
import JobPipeline.Proofs.Plan.Compiled
import JobPipeline.Proofs.Plan.Renaming
import Mathlib.Logic.Equiv.Basic

/-
The plan after a rename that tokens follow.

Tasks, edges and the tokens of fields follow the rename, and so does the plan.  What is
only a token once the text is written does not follow: a task that mentions the old name
in this way waits for the renamed task no longer.  Where the renamed task leads to the
other this is no loss, as the edge counts before any token.
-/
namespace JobPipeline

open JobPipeline.Field (tokenNames)

variable {old new : String}

/-- Apart from the new name, a rename is the exchange of the two names. -/
theorem swap_eq_followName {name : String} (h : name ≠ new) :
    Equiv.swap old new name = followName old new name := by
  by_cases hold : name = old
  · rw [hold, Equiv.swap_apply_left, followName, if_pos rfl]
  · rw [Equiv.swap_apply_of_ne_of_ne hold h, followName, if_neg hold]

theorem map_swap_eq {names : List String} (h : new ∉ names) :
    names.map (Equiv.swap old new) = names.map (followName old new) :=
  List.map_congr_left fun _ hname => swap_eq_followName fun heq => h (heq ▸ hname)

/-- A name that a rename neither takes away nor gives. -/
def apart (old new name : String) : Bool := name ≠ old && name ≠ new

theorem apart_eq_false {name : String} : apart old new name = false ↔ name = old ∨ name = new := by
  simp [apart, Decidable.or_iff_not_imp_left]

theorem map_swap_filter_apart (names : List String) :
    (names.filter (apart old new)).map (Equiv.swap old new) = names.filter (apart old new) := by
  refine (List.map_congr_left fun name hname => ?_).trans (List.map_id _)
  have hapart : ¬name = old ∧ ¬name = new := by
    simpa [apart] using (List.mem_filter.1 hname).2
  exact Equiv.swap_apply_of_ne_of_ne hapart.1 hapart.2

theorem exists_swap_eq {name : String} (h : apart old new name = false) :
    ∃ other, apart old new other = false ∧ Equiv.swap old new other = name := by
  rcases apart_eq_false.1 h with rfl | rfl
  · exact ⟨new, apart_eq_false.2 (.inr rfl), Equiv.swap_apply_right name new⟩
  · exact ⟨old, apart_eq_false.2 (.inl rfl), Equiv.swap_apply_left old name⟩

namespace Plan

variable {g g' : TaskGraph} {n n' : Node} {task task' : ParsedTask}

theorem referenceIds_eq (task : ParsedTask) :
    referenceIds task = task.attributes.values.flatMap fun text => tokenNames text.raw.toList := rfl

/-- Attributes agree where the fields that are written do. -/
theorem values_of_declares {R : List String → List String → Prop} (hn : Node.Follows old new n n')
    (htask : Source.Declares (n.name, n.declared g) task)
    (htask' : Source.Declares (n'.name, n'.declared g') task')
    (h : ∀ layout ∈ n.kind.fields, R (tokenNames (layout.normal n g)) (tokenNames (layout.normal n' g'))) :
    List.Forall₂ (fun text text' => R (tokenNames text.raw.toList) (tokenNames text'.raw.toList))
      task.attributes.values task'.attributes.values := by
  have hattributes : task.attributes = Dict.ofList ((n.declaredFields g n.kind.fields).map fun e =>
      (e.1, FieldText.verbatim e.2)) := htask.attributes
  have hattributes' : task'.attributes = Dict.ofList ((n'.declaredFields g' n'.kind.fields).map fun e =>
      (e.1, FieldText.verbatim e.2)) := htask'.attributes
  have hfields : List.Forall₂
      (fun a a' : String × String => a.1 = a'.1 ∧ R (tokenNames a.2.toList) (tokenNames a'.2.toList))
      (n.declaredFields g n.kind.fields) (n'.declaredFields g' n.kind.fields) := by
    refine @Node.Follows.declaredFields old new g g' n n'
      (fun s s' => R (tokenNames s.toList) (tokenNames s'.toList)) hn n.kind.fields fun layout hlayout => ?_
    rw [String.toList_ofList, String.toList_ofList]
    exact h layout hlayout
  rw [hattributes, hattributes', hn.kind]
  refine Dict.forall₂_values_ofList ?_
  rw [List.forall₂_map_left_iff, List.forall₂_map_right_iff]
  exact hfields

theorem filter_referenceIds (keep : String → Bool) (h : List.Forall₂ (fun text text' =>
      (tokenNames text'.raw.toList).filter keep = (tokenNames text.raw.toList).filter keep)
      task.attributes.values task'.attributes.values) :
    (referenceIds task').filter keep = (referenceIds task).filter keep := by
  rw [referenceIds_eq, referenceIds_eq, List.filter_flatMap, List.filter_flatMap, List.flatMap_def,
    List.flatMap_def]
  exact congrArg List.flatten (map_eq_of_forall₂ h fun _ _ heq => heq.symm).symm

theorem map_referenceIds (f : String → String) (h : List.Forall₂ (fun text text' =>
      tokenNames text'.raw.toList = (tokenNames text.raw.toList).map f)
      task.attributes.values task'.attributes.values) :
    referenceIds task' = (referenceIds task).map f := by
  rw [referenceIds_eq, referenceIds_eq, List.map_flatMap, List.flatMap_def, List.flatMap_def]
  exact congrArg List.flatten (map_eq_of_forall₂ h fun _ _ heq => heq.symm).symm

end Plan

namespace TaskGraph

/-- A graph before and after the rename of a task, and the pipelines that are read from
the two texts. -/
structure Retargets (node : Node) (new : String) (g g' : TaskGraph) (p p' : ParsedSource) : Prop where
  wellFormed : g.WellFormed
  mem : node ∈ g.nodes
  follows : Follows node.name new g g'
  names : NamesFollow node.name new g g'
  /-- The new name is no part of any field. -/
  absent : ∀ n ∈ g.nodes, ∀ key, ¬new.toList <:+: (n.field key).toList
  before : g.Reads p
  after : g'.Reads p'

namespace Retargets

variable {node n n' : Node} {g g' : TaskGraph} {p p' : ParsedSource} {task task' : ParsedTask}

theorem not_mem_written (h : Retargets node new g g' p p') : new ∉ g.written.map Node.name := by
  intro hmem
  obtain ⟨n, hn, rfl⟩ := List.mem_map.1 hmem
  have hname := h.wellFormed.hasName_iff.2 (List.mem_map_of_mem (List.mem_filter.1 hn).1)
  rw [h.names.unused] at hname
  cases hname

theorem declared (h : Retargets node new g g' p p') :
    p'.tasks.map ParsedTask.name = (p.tasks.map ParsedTask.name).map (Equiv.swap node.name new) := by
  rw [h.after.names, h.before.names, map_swap_eq h.not_mem_written, List.map_map]
  exact (map_eq_of_forall₂ h.follows.written fun _ _ hn => hn.name.symm).symm

theorem edges (h : Retargets node new g g' p p') : p'.edges = p.edges.map fun e =>
    ⟨Equiv.swap node.name new e.source, Equiv.swap node.name new e.target⟩ := by
  rw [h.after.edges, h.before.edges, h.follows.edges, List.map_map]
  refine List.map_congr_left fun e he => ?_
  obtain ⟨hsource, htarget⟩ := h.wellFormed.ends_written he
  have hne : ∀ {name : String}, name ∈ g.written.map Node.name → name ≠ new := fun hmem heq =>
    h.not_mem_written (heq ▸ hmem)
  show (⟨_, _⟩ : ParsedEdge) = ⟨Equiv.swap node.name new e.sourceName, Equiv.swap node.name new e.targetName⟩
  rw [swap_eq_followName (hne hsource), swap_eq_followName (hne htarget)]

theorem sourcesOf (h : Retargets node new g g' p p')
    (hname : task'.name = Equiv.swap node.name new task.name) :
    p'.sourcesOf task'.name = (p.sourcesOf task.name).map (Equiv.swap node.name new) :=
  hname ▸ Plan.sourcesOf_mapName (Equiv.swap node.name new).injective h.edges task.name

theorem edgeInputs (h : Retargets node new g g' p p')
    (hname : task'.name = Equiv.swap node.name new task.name) :
    (p'.sourcesOf task'.name).map (fun source => (⟨source, true⟩ : PlanInput)) =
      ((p.sourcesOf task.name).map fun source => ⟨source, true⟩).map
        (PlanInput.mapName (Equiv.swap node.name new)) := by
  rw [h.sourcesOf hname, List.map_map, List.map_map]
  rfl

theorem moved (h : Retargets node new g g' p p') (hn : n ∈ g.written)
    (hfollows : Node.Follows node.name new n n') {layout : FieldLayout} (hlayout : layout ∈ n.kind.fields) :
    Moved node.name new (layout.ownNames n) (tokenNames (layout.normal n g))
      (tokenNames (layout.normal n' g')) := by
  have hmem : n ∈ g.nodes := (List.mem_filter.1 hn).1
  exact FieldLayout.moved_normal h.names (TaskKind.regular_of_mem hlayout) hfollows
    (h.wellFormed.isWord_incoming hmem) (h.absent n hmem layout.key)

/-- Where the renamed task is an input anyway, or none at all, no token of either name
counts. -/
theorem idle (h : Retargets node new g g' p p') (hn : n ∈ g.written) (hname : task.name = n.name)
    (hcase : node.kind.isWritten = true → n.name = node.name ∨ node.name ∈ n.incoming) {name : String}
    (heither : name = node.name ∨ name = new) :
    Plan.Idle p task ((p.sourcesOf task.name).map fun source => ⟨source, true⟩) name := by
  rw [Plan.Idle, Plan.ids_sources, hname, h.before.sourcesOf h.wellFormed hn, Plan.Added,
    h.before.names, hname]
  rcases heither with rfl | rfl
  · cases hwritten : node.kind.isWritten with
    | false =>
      refine .inr fun hadded => ?_
      obtain ⟨m, hm, heq⟩ := List.mem_map.1 hadded.1
      obtain ⟨hmem, hkind⟩ := List.mem_filter.1 hm
      rw [eq_of_name_eq h.wellFormed.names hmem h.mem heq, hwritten] at hkind
      cases hkind
    | true =>
      rcases hcase hwritten with hself | hfed
      · exact .inr fun hadded => hadded.2 hself.symm
      · refine .inl (List.mem_filter.2 ⟨hfed, ?_⟩)
        have hid : g.idOf? node.name = some node.id :=
          (h.wellFormed.indexed _ _).2 ⟨node, h.mem, rfl, rfl⟩
        rw [namesWritten, named?, hid]
        simp [node?_eq_some h.wellFormed.nodeIds h.mem, hwritten]
  · exact .inr fun hadded => h.not_mem_written hadded.1

/-- Tokens of the two names count for nothing here, and all others stay. -/
theorem inputsOf_of_idle (h : Retargets node new g g' p p') (hn : n ∈ g.written)
    (hfollows : Node.Follows node.name new n n')
    (htask : Source.Declares (n.name, n.declared g) task)
    (htask' : Source.Declares (n'.name, n'.declared g') task')
    (hname : task'.name = Equiv.swap node.name new task.name)
    (hcase : node.kind.isWritten = true → n.name = node.name ∨ node.name ∈ n.incoming) :
    Plan.inputsOf p' task' =
      (Plan.inputsOf p task).map (PlanInput.mapName (Equiv.swap node.name new)) := by
  have hkept : (Plan.referenceIds task').filter (apart node.name new) =
      (Plan.referenceIds task).filter (apart node.name new) := by
    refine Plan.filter_referenceIds _ (Plan.values_of_declares (R := fun names names' =>
      names'.filter (apart node.name new) = names.filter (apart node.name new)) hfollows htask htask' ?_)
    intro layout hlayout
    exact (h.moved hn hfollows hlayout).filter_eq (apart_eq_false.2 (.inl rfl))
      (apart_eq_false.2 (.inr rfl))
  rw [Plan.inputsOf, Plan.inputsOf, h.edgeInputs hname]
  exact Plan.foldl_mapName_of_idle (Equiv.swap node.name new).injective h.declared hname
    (fun name hidle => h.idle hn htask.name hcase (apart_eq_false.1 hidle))
    (fun _ => exists_swap_eq) (hkept.trans (map_swap_filter_apart _).symm)

/-- All tokens of the two names are tokens of the fields. -/
theorem inputsOf_of_explicit (h : Retargets node new g g' p p') (hn : n ∈ g.written)
    (hfollows : Node.Follows node.name new n n')
    (htask : Source.Declares (n.name, n.declared g) task)
    (htask' : Source.Declares (n'.name, n'.declared g') task')
    (hname : task'.name = Equiv.swap node.name new task.name)
    (hexplicit : ∀ layout ∈ n.kind.fields, layout.Explicit n g node.name ∧ layout.Explicit n g new) :
    Plan.inputsOf p' task' =
      (Plan.inputsOf p task).map (PlanInput.mapName (Equiv.swap node.name new)) := by
  have hf := (Equiv.swap node.name new).injective
  have hmem : n ∈ g.nodes := (List.mem_filter.1 hn).1
  have hids : Plan.referenceIds task' = (Plan.referenceIds task).map (Equiv.swap node.name new) := by
    refine Plan.map_referenceIds _ (Plan.values_of_declares
      (R := fun names names' => names' = names.map (Equiv.swap node.name new)) hfollows htask htask' ?_)
    intro layout hlayout
    obtain ⟨hold, hnew⟩ := hexplicit layout hlayout
    rw [(h.moved hn hfollows hlayout).eq_map hold]
    exact (map_swap_eq (hnew.not_mem (h.absent n hmem layout.key))).symm
  rw [Plan.inputsOf, Plan.inputsOf, hids, h.edgeInputs hname, Plan.foldl_mapName hf h.declared hname]

/-- The two pipelines have the same tasks, as they are before and after the rename. -/
theorem tasks (h : Retargets node new g g' p p') :
    List.Forall₂ (fun task task' => ∃ n n', n ∈ g.written ∧ Node.Follows node.name new n n' ∧
      Source.Declares (n.name, n.declared g) task ∧ Source.Declares (n'.name, n'.declared g') task')
      p.tasks p'.tasks := by
  have hafter := forall₂_trans h.follows.written h.after.tasks fun n n' task' hn htask' =>
    (⟨n', hn, htask'⟩ : ∃ n', Node.Follows node.name new n n' ∧
      Source.Declares (n'.name, n'.declared g') task')
  refine forall₂_trans (forall₂_mem h.before.tasks).flip hafter fun task n task' htask hn' => ?_
  obtain ⟨⟨hn, _⟩, htask⟩ := htask
  obtain ⟨n', hfollows, htask'⟩ := hn'
  exact ⟨n, n', hn, hfollows, htask, htask'⟩

/-- A step of the plan is the step of the same task under the other name. -/
theorem instructions (h : Retargets node new g g' p p')
    (hexplicit : node.kind.isWritten = true → ∀ n ∈ g.written, n.name ≠ node.name →
      node.name ∉ n.incoming → ∀ layout ∈ n.kind.fields,
        layout.Explicit n g node.name ∧ layout.Explicit n g new) (hg' : g'.WellFormed) :
    Plan.instructions p' =
      (Plan.instructions p).map (Instruction.mapNames (Equiv.swap node.name new)) := by
  rw [Plan.instructions_eq (h.before.nodup_names h.wellFormed),
    Plan.instructions_eq (h.after.nodup_names hg'), List.map_map]
  refine (map_eq_of_forall₂ h.tasks fun task task' hpaired => ?_).symm
  obtain ⟨n, n', hn, hfollows, htask, htask'⟩ := hpaired
  have hplain : task.name = n.name := htask.name
  have hname : task'.name = Equiv.swap node.name new task.name := by
    have hne : n.name ≠ new := fun heq => h.not_mem_written (heq ▸ List.mem_map_of_mem hn)
    rw [hplain, swap_eq_followName hne, ← hfollows.name]
    exact htask'.name
  have hinputs : Plan.inputsOf p' task' =
      (Plan.inputsOf p task).map (PlanInput.mapName (Equiv.swap node.name new)) := by
    by_cases hcase : node.kind.isWritten = true → n.name = node.name ∨ node.name ∈ n.incoming
    · exact h.inputsOf_of_idle hn hfollows htask htask' hname hcase
    · rw [Classical.not_imp, not_or] at hcase
      exact h.inputsOf_of_explicit hn hfollows htask htask' hname
        (hexplicit hcase.1 n hn hcase.2.1 hcase.2.2)
  rw [hinputs, hname]
  rfl

/-- The names of a plan are names of tasks, and the new name is none. -/
theorem mapNames_eq (h : Retargets node new g g' p p') {plan : Plan} (hplan : Plan.ofParsed p = .ok plan) :
    plan.mapNames (Equiv.swap node.name new) = plan.mapNames (followName node.name new) := by
  have hnames := h.before.nodup_names h.wellFormed
  obtain ⟨ordered, stuck, harranged, heq⟩ := Plan.ofParsed_eq hnames
  rw [heq] at hplan
  split at hplan
  · cases hplan
    rw [Plan.mapNames, Plan.mapNames]
    congr 1
    refine List.map_congr_left fun step hstep => ?_
    have hmem := harranged.perm.subset (List.mem_append_left stuck hstep)
    rw [Plan.instructions_eq hnames] at hmem
    obtain ⟨task, htask, rfl⟩ := List.mem_map.1 hmem
    have hname : ∀ name ∈ p.tasks.map ParsedTask.name,
        Equiv.swap node.name new name = followName node.name new name := fun name hmem =>
      swap_eq_followName fun heq => h.not_mem_written (h.before.names ▸ heq ▸ hmem)
    rw [Instruction.mapNames, Instruction.mapNames, hname _ (List.mem_map_of_mem htask)]
    congr 1
    refine List.map_congr_left fun i hi => ?_
    rw [PlanInput.mapName, PlanInput.mapName, hname]
    rcases Plan.mem_inputsOf.1 (List.mem_map_of_mem hi) with hedge | ⟨-, hadded⟩
    · rw [h.before.edges] at hedge
      obtain ⟨e, he, hnamed⟩ := List.mem_map.1 hedge
      obtain ⟨hsource, -⟩ := ParsedEdge.mk.inj hnamed
      rw [← hsource, h.before.names]
      exact (h.wellFormed.ends_written he).1
    · exact hadded.1
  · cases hplan

end Retargets

/-! ## The rename -/

/-- A rename that tokens follow keeps the plan, under the new name.  Only the tasks that
the renamed one does not lead to can tell the difference, and only by a token of one of
the two names that is none in the field. -/
theorem plan_rename {g : TaskGraph} (hg : g.Built) (hbalanced : ∀ n ∈ g.nodes, n.AnglesBalanced)
    {node : Node} (hnode : node ∈ g.nodes) {new : String} (hunused : g.hasName new = false)
    (habsent : ∀ n ∈ g.nodes, ∀ e ∈ n.fields.entries, ¬new.toList <:+: e.2.toList)
    (hok : (g.rename node.id new .retargetTokens).1 = .ok ())
    (hexplicit : node.kind.isWritten = true → ∀ n ∈ g.written, n.name ≠ node.name →
      node.name ∉ n.incoming → ∀ layout ∈ n.kind.fields,
        layout.Explicit n g node.name ∧ layout.Explicit n g new)
    {plan : Plan} (hplan : Plan.ofSource g.source = .ok plan) :
    Plan.ofSource (g.rename node.id new .retargetTokens).2.source =
      .ok (plan.mapNames (followName node.name new)) := by
  have h := hg.sound
  have h' : (g.rename node.id new .retargetTokens).2.Sound := h.rename ..
  have hne : node.name ≠ new := by
    rintro rfl
    rw [h.wellFormed.hasName_iff.2 (List.mem_map_of_mem hnode)] at hunused
    cases hunused
  have hfollows := h.wellFormed.follows_rename hnode hne hok
  have hword : Identifier.isWord new.toList = true := by
    obtain ⟨n', hn', hnamed⟩ := forall₂_left hfollows.nodes hnode
    have hname : n'.name = new := hnamed.name.trans (if_pos rfl)
    rw [← hname]
    exact Source.isWord_of_isValid (h'.wellFormed.validNames n' hn')
  have habsent' : ∀ n ∈ g.nodes, ∀ key, ¬new.toList <:+: (n.field key).toList := by
    intro n hn key hfound
    rcases n.field_eq key with hempty | hentry
    · rw [hempty] at hfound
      have hnil : new.toList = [] := List.infix_nil.1 hfound
      rw [hnil] at hword
      cases hword
    · exact habsent n hn _ hentry hfound
  have hnames : NamesFollow node.name new g (g.rename node.id new .retargetTokens).2 :=
    ⟨hword, hunused, fun name hname => hfollows.hasName h.wellFormed h'.wellFormed hname⟩
  have hbalanced' : ∀ n' ∈ (g.rename node.id new .retargetTokens).2.nodes, n'.AnglesBalanced := by
    intro n' hn'
    obtain ⟨n, hn, hnamed⟩ := forall₂_right hfollows.nodes hn'
    exact hnamed.anglesBalanced hword (hbalanced n hn)
  obtain ⟨p, hparse, hp⟩ := h.parse_source hbalanced
  obtain ⟨p', hparse', hp'⟩ := h'.parse_source hbalanced'
  have hretargets : Retargets node new g (g.rename node.id new .retargetTokens).2 p p' :=
    ⟨h.wellFormed, hnode, hfollows, hnames, habsent', hp, hp'⟩
  rw [Plan.ofSource, hparse] at hplan
  rw [Plan.ofSource, hparse', ← hretargets.mapNames_eq hplan]
  exact Plan.ofParsed_mapNames (Equiv.swap node.name new).injective
    (hretargets.instructions hexplicit h'.wellFormed) hplan

/-- A task that is named by a token, and by a bare item of a task that it leads to. -/
def tokenGraph : TaskGraph :=
  empty.afterAll [.addNamed .http "fetch" .origin none, .addNamed .sum "total" .origin none,
    .addNamed .sum "fed" .origin none, .connectNamed "fetch" "fed",
    .setFields "node_2" [("values", "[$(fetch), 1]")],
    .setFields "node_3" [("values", "[fetch, $(total)]")]]

theorem plan_rename_tokenGraph :
    ∃ node ∈ tokenGraph.nodes, node.name = "fetch" ∧
      Plan.ofSource tokenGraph.source = .ok ⟨[⟨"fetch", []⟩, ⟨"total", [⟨"fetch", false⟩]⟩,
        ⟨"fed", [⟨"fetch", true⟩, ⟨"total", false⟩]⟩]⟩ ∧
      Plan.ofSource (tokenGraph.rename node.id "load" .retargetTokens).2.source =
        .ok ⟨[⟨"load", []⟩, ⟨"total", [⟨"load", false⟩]⟩,
          ⟨"fed", [⟨"load", true⟩, ⟨"total", false⟩]⟩]⟩ := by
  have hplan : Plan.ofSource tokenGraph.source = .ok ⟨[⟨"fetch", []⟩, ⟨"total", [⟨"fetch", false⟩]⟩,
      ⟨"fed", [⟨"fetch", true⟩, ⟨"total", false⟩]⟩]⟩ := by decide +kernel
  have hrename : ∃ node ∈ tokenGraph.nodes, node.name = "fetch" ∧
      (tokenGraph.rename node.id "load" .retargetTokens).1 = .ok () ∧
      ∀ n ∈ tokenGraph.written, n.name ≠ node.name → node.name ∉ n.incoming →
        ∀ layout ∈ n.kind.fields, layout.Explicit n tokenGraph node.name ∧
          layout.Explicit n tokenGraph "load" := by decide +kernel
  obtain ⟨node, hnode, hname, hok, hexplicit⟩ := hrename
  have hafter := plan_rename ⟨_, rfl⟩ (by decide +kernel) hnode (by decide +kernel) (by decide +kernel)
    hok (fun _ => hexplicit) hplan
  rw [hname] at hafter
  exact ⟨node, hnode, hname, hplan, hafter.trans (by decide)⟩

/-- A task that is named by a bare item only. -/
def bareGraph : TaskGraph :=
  empty.afterAll [.addNamed .http "fetch" .origin none, .addNamed .sum "total" .origin none,
    .setFields "node_2" [("values", "[fetch, 1]")]]

/-- A bare item stays behind, and the task that has it waits no longer. -/
theorem not_plan_rename : ¬∀ (g : TaskGraph), g.Built → (∀ n ∈ g.nodes, n.AnglesBalanced) →
    (∀ n ∈ g.nodes, ∀ e ∈ n.fields.entries, Field.Unmarked e.2.toList) →
    ∀ node ∈ g.nodes, ∀ new, Identifier.isValid new = true → g.hasName new = false →
      new ≠ "jobSpec" → new ≠ "jobRun" →
      (∀ n ∈ g.nodes, ∀ e ∈ n.fields.entries, ¬new.toList <:+: e.2.toList) →
      (g.rename node.id new .retargetTokens).1 = .ok () →
      ∀ plan, Plan.ofSource g.source = .ok plan →
        Plan.ofSource (g.rename node.id new .retargetTokens).2.source =
          .ok (plan.mapNames (followName node.name new)) := by
  intro hall
  have hrename : ∃ node ∈ bareGraph.nodes, node.name = "fetch" ∧
      (bareGraph.rename node.id "load" .retargetTokens).1 = .ok () ∧
      Plan.ofSource (bareGraph.rename node.id "load" .retargetTokens).2.source =
        .ok ⟨[⟨"load", []⟩, ⟨"total", []⟩]⟩ := by decide +kernel
  obtain ⟨node, hnode, hname, hok, hafter⟩ := hrename
  have hclaimed := hall bareGraph ⟨_, rfl⟩ (by decide) (by decide +kernel) node hnode "load"
    (by decide) (by decide +kernel) (by decide) (by decide) (by decide +kernel) hok
    ⟨[⟨"fetch", []⟩, ⟨"total", [⟨"fetch", false⟩]⟩]⟩ (by decide +kernel)
  rw [hafter, hname] at hclaimed
  exact absurd hclaimed (by decide)

end TaskGraph
end JobPipeline
