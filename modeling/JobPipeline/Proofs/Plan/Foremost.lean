import JobPipeline.Proofs.Matching
import JobPipeline.Proofs.Plan.Inputs
import JobPipeline.Proofs.Source.Declared

/-
Plans as topological orders.

What a task depends on is read off the pipeline: the tasks with an edge to it and the
declared tasks that its tokens name.  A plan is an order in which every task stands behind
what it depends on, and of all such orders it is the one that comes first when tasks are
compared by their declarations.  It is so because at each place any other order has a task
that is ready there, and the plan has the first of these.
-/
namespace JobPipeline

open Relation (ReflTransGen TransGen)

namespace ParsedSource

def names (p : ParsedSource) : List String := p.tasks.map ParsedTask.name

/-- The second task depends on the first: an edge leads from the first to the second, or
the first is another declared task and a token of the second names it. -/
def Feeds (p : ParsedSource) (source target : String) : Prop :=
  ∃ task ∈ p.tasks, task.name = target ∧ ((⟨source, target⟩ : ParsedEdge) ∈ p.edges ∨
    source ∈ Plan.referenceIds task ∧ source ∈ p.names ∧ source ≠ target)

/-- The tasks in an order in which each stands behind all that it depends on. -/
structure Ordered (p : ParsedSource) (order : List String) : Prop where
  perm : order.Perm p.names
  behind : ∀ front target back, order = front ++ target :: back →
    ∀ source, p.Feeds source target → source ∈ front

/-- The places of tasks in the text. -/
def places (p : ParsedSource) (order : List String) : List Nat := order.map p.names.idxOf

/-- The tasks that a task depends on because of its tokens alone, by their first tokens. -/
def named (p : ParsedSource) (task : ParsedTask) : List String :=
  ((Plan.referenceIds task).filter fun id =>
    id ∈ p.names ∧ id ≠ task.name ∧ id ∉ p.sourcesOf task.name).eraseDups

end ParsedSource

namespace Plan

variable {p : ParsedSource}

theorem feeds_eq (hnames : p.names.Nodup) : Needs (instructions p) = p.Feeds := by
  funext source target
  rw [eq_iff_iff, needs_iff hnames]
  constructor
  · rintro ⟨task, htask, rfl, hedge | ⟨hnamed, hadded⟩⟩
    · exact ⟨task, htask, rfl, .inl hedge⟩
    · exact ⟨task, htask, rfl, .inr ⟨hnamed, hadded⟩⟩
  · rintro ⟨task, htask, rfl, hedge | ⟨hnamed, hadded⟩⟩
    · exact ⟨task, htask, rfl, .inl hedge⟩
    · exact ⟨task, htask, rfl, .inr ⟨hnamed, hadded⟩⟩

/-! ## The first order -/

/-- Names in an order in which each stands behind those it is related to, if they are not
done already. -/
def Behind (R : String → String → Prop) : (done order : List String) → Prop
  | _, [] => True
  | done, name :: rest => (∀ source, R source name → source ∈ done) ∧ Behind R (name :: done) rest

theorem behind_of_forall {R : String → String → Prop} {done order : List String}
    (h : ∀ front target back, order = front ++ target :: back →
      ∀ source, R source target → source ∈ done ∨ source ∈ front) : Behind R done order := by
  induction order generalizing done with
  | nil => trivial
  | cons name rest ih =>
    refine ⟨fun source hsource => (h [] name rest rfl source hsource).resolve_right List.not_mem_nil,
      ih fun front target back hrest source hsource => ?_⟩
    have hcases := h (name :: front) target back (by rw [hrest]; rfl) source hsource
    rw [List.mem_cons] at hcases
    rw [List.mem_cons, or_assoc, or_left_comm]
    exact hcases

/-- No order puts its names further in front than the arrangement does. -/
theorem Arranged.foremost {R : String → String → Prop} {index : String → Nat} {done : List String}
    {steps ordered stuck : List Instruction} (h : Arranged done steps ordered stuck)
    (hneeds : ∀ step ∈ steps, ∀ i ∈ step.inputs, R i.id step.id)
    (hindex : steps.Pairwise fun s t => index s.id < index t.id) {order : List String}
    (hperm : order.Perm (steps.map Instruction.id)) (hbehind : Behind R done order) :
    order = ordered.map Instruction.id ∨
      (ordered.map Instruction.id).map index < order.map index := by
  induction h generalizing order with
  | stop =>
    cases order with
    | nil => exact .inl rfl
    | cons first rest => exact .inr (by simp)
  | @place done step before after ordered stuck hbefore hready _ ih =>
    cases order with
    | nil => simp at hperm
    | cons first rest =>
      obtain ⟨hfirst, hrest⟩ := hbehind
      by_cases hsame : first = step.id
      · subst hsame
        have hmiddle : (before ++ step :: after).Perm (step :: (before ++ after)) := List.perm_middle
        have hperm' : rest.Perm ((before ++ after).map Instruction.id) :=
          (hperm.trans (hmiddle.map Instruction.id)).cons_inv
        have hsublist : (before ++ after).Sublist (before ++ step :: after) :=
          (List.sublist_cons_self _ _).append_left _
        rcases ih (fun s hs => hneeds s (hsublist.subset hs)) (hindex.sublist hsublist) hperm' hrest with
          heq | hlt
        · exact .inl (by rw [heq, List.map_cons])
        · exact .inr (List.cons_lt_cons_iff.2 (.inr ⟨rfl, hlt⟩))
      · -- The other order begins with a ready step, and that is declared further on.
        obtain ⟨other, hother, rfl⟩ := List.mem_map.1 (hperm.subset List.mem_cons_self)
        have hotherReady : Ready done other := fun i hi => hfirst i.id (hneeds other hother i hi)
        have hafter : other ∈ after := by
          rcases List.mem_append.1 hother with hmem | hmem
          · exact absurd hotherReady (hbefore other hmem)
          · exact (List.mem_cons.1 hmem).resolve_left fun heq => hsame (by rw [heq])
        have hlt : index step.id < index other.id :=
          List.rel_of_pairwise_cons (List.pairwise_append.1 hindex).2.1 hafter
        exact .inr (List.cons_lt_cons_iff.2 (.inl hlt))

/-! ## Inputs -/

/-- A token adds the task that it names where none before it did and no edge does. -/
theorem foldl_addReference (p : ParsedSource) (task : ParsedTask) (sources names : List String) :
    names.foldl (addReference p task) (sources.map fun source => ⟨source, true⟩) =
      (sources.map fun source => ⟨source, true⟩) ++
        ((names.filter fun id => id ∈ p.names ∧ id ≠ task.name ∧ id ∉ sources).eraseDups.map
          fun id => ⟨id, false⟩) := by
  induction names using List.reverseRecOn with
  | nil => simp
  | append_singleton names name ih =>
    rw [List.foldl_append, List.foldl_cons, List.foldl_nil, List.filter_append]
    have hmem : name ∈ (names.foldl (addReference p task)
        (sources.map fun source => ⟨source, true⟩)).map PlanInput.id ↔
          name ∈ sources ∨ name ∈ names ∧ Added p task name := by
      rw [mem_foldl, ids_sources]
    by_cases hadded : Added p task name
    · by_cases hsource : name ∈ sources
      · have hdropped : [name].filter (fun id => id ∈ p.names ∧ id ≠ task.name ∧ id ∉ sources) = [] := by
          simp [hsource]
        rw [addReference_of_listed (hmem.2 (.inl hsource)), ih, hdropped, List.append_nil]
      · have hkept : [name].filter (fun id => id ∈ p.names ∧ id ≠ task.name ∧ id ∉ sources) = [name] := by
          simpa using ⟨hadded.1, hadded.2, hsource⟩
        have hbefore : name ∈ names.filter (fun id => id ∈ p.names ∧ id ≠ task.name ∧ id ∉ sources) ↔
            name ∈ names := by
          simpa using fun _ => ⟨hadded.1, hadded.2, hsource⟩
        rw [hkept, eraseDups_append_singleton]
        by_cases hnamed : name ∈ names
        · rw [addReference_of_listed (hmem.2 (.inr ⟨hnamed, hadded⟩)), ih, if_pos (hbefore.2 hnamed)]
        · have hnew := mt hmem.1 (not_or.2 ⟨hsource, fun h => hnamed h.1⟩)
          rw [addReference_of_added hadded hnew, ih, if_neg (mt hbefore.1 hnamed), List.map_append,
            List.append_assoc]
          rfl
    · have hdropped : [name].filter (fun id => id ∈ p.names ∧ id ≠ task.name ∧ id ∉ sources) = [] := by
        rw [List.filter_eq_nil_iff]
        intro id hid hkept
        rw [List.mem_singleton.1 hid] at hkept
        obtain ⟨hname, hself, -⟩ := of_decide_eq_true hkept
        exact hadded ⟨hname, hself⟩
      rw [addReference_of_not_added hadded, ih, hdropped, List.append_nil]

theorem inputsOf_eq (p : ParsedSource) (task : ParsedTask) :
    inputsOf p task = ((p.sourcesOf task.name).map fun source => ⟨source, true⟩) ++
      (p.named task).map fun id => ⟨id, false⟩ := foldl_addReference p task _ _

/-- No task is an input twice. -/
theorem nodup_inputsOf (h : p.edges.Nodup) (task : ParsedTask) :
    ((inputsOf p task).map PlanInput.id).Nodup := by
  have hids : (inputsOf p task).map PlanInput.id = p.sourcesOf task.name ++ p.named task := by
    rw [inputsOf_eq, List.map_append, ids_sources, List.map_map]
    exact congrArg _ (List.map_id' _)
  rw [hids, List.nodup_append']
  refine ⟨?_, nodup_eraseDups _, fun name hsource hnamed => ?_⟩
  · rw [ParsedSource.sourcesOf]
    refine List.Nodup.map_on (fun e he e' he' hsame => ?_) (h.filter _)
    have htarget := of_decide_eq_true (List.mem_filter.1 he).2
    have htarget' := of_decide_eq_true (List.mem_filter.1 he').2
    cases e
    cases e'
    simp_all
  · rw [ParsedSource.named, List.mem_eraseDups, List.mem_filter] at hnamed
    exact (of_decide_eq_true hnamed.2).2.2 hsource

/-! ## Plans -/

/-- The steps of a pipeline stand in the order of the text. -/
theorem pairwise_instructions (hnames : p.names.Nodup) :
    (instructions p).Pairwise fun s t => p.names.idxOf s.id < p.names.idxOf t.id := by
  have hplaces : p.names.Pairwise fun a b => p.names.idxOf a < p.names.idxOf b := by
    rw [List.pairwise_iff_getElem]
    intro i j hi hj hlt
    rwa [hnames.idxOf_getElem i hi, hnames.idxOf_getElem j hj]
  have hids : (instructions p).map Instruction.id = p.names := ids_instructions hnames
  rw [← hids, List.pairwise_map, hids] at hplaces
  exact hplaces

/-- A plan leaves no step out, and an error leaves some. -/
theorem ofParsed_cases (hnames : p.names.Nodup) :
    (∃ ordered, Arranged [] (instructions p) ordered [] ∧ ofParsed p = .ok ⟨ordered⟩) ∨
    ∃ ordered stuck, stuck ≠ [] ∧ Arranged [] (instructions p) ordered stuck ∧
      ofParsed p = .error ⟨.cycle (stuck.map Instruction.id), none⟩ := by
  obtain ⟨ordered, stuck, harranged, hplan⟩ := ofParsed_eq hnames
  by_cases hstuck : stuck = []
  · rw [if_pos hstuck] at hplan
    exact .inl ⟨ordered, hstuck ▸ harranged, hplan⟩
  · rw [if_neg hstuck] at hplan
    exact .inr ⟨ordered, stuck, hstuck, harranged, hplan⟩

section Parsed

variable {ordered stuck : List Instruction} (hdeclared : p.Declared)

include hdeclared

theorem mem_stuck (h : Arranged [] (instructions p) ordered stuck) (name : String) :
    name ∈ stuck.map Instruction.id ↔
      ∃ on, TransGen p.Feeds on on ∧ ReflTransGen p.Feeds on name := by
  have hids : (instructions p).map Instruction.id = p.names := ids_instructions hdeclared.names
  have hclosed : ∀ u v, Needs (instructions p) u v → u ∈ (instructions p).map Instruction.id := by
    intro u v hneeds
    rw [hids]
    rw [feeds_eq hdeclared.names] at hneeds
    obtain ⟨task, -, -, hedge | ⟨-, hmem, -⟩⟩ := hneeds
    · exact (hdeclared.ends _ hedge).1
    · exact hmem
  rw [h.mem_stuck_iff (hids ▸ hdeclared.names) hclosed, feeds_eq hdeclared.names]

theorem ordered_of_arranged (h : Arranged [] (instructions p) ordered []) :
    p.Ordered (ordered.map Instruction.id) where
  perm := by
    have hperm := h.perm.map Instruction.id
    rwa [List.append_nil, ids_instructions hdeclared.names] at hperm
  behind front target back horder source hsource := by
    obtain ⟨first, rest, hcut, rfl, hrest⟩ := List.map_eq_append_iff.1 horder
    obtain ⟨step, last, rfl, rfl, -⟩ := List.map_eq_cons_iff.1 hrest
    rw [← feeds_eq hdeclared.names] at hsource
    obtain ⟨other, hother, hid, hmem⟩ := hsource
    have hstep : step ∈ instructions p := by
      refine h.perm.subset (List.mem_append_left [] ?_)
      rw [hcut]
      exact List.mem_append_right first List.mem_cons_self
    have hids : ((instructions p).map Instruction.id).Nodup :=
      ids_instructions hdeclared.names ▸ hdeclared.names
    have hsame : other = step := List.inj_on_of_nodup_map hids hother hstep hid
    subst hsame
    obtain ⟨input, hinput, rfl⟩ := List.mem_map.1 hmem
    exact (h.ready hcut input hinput).resolve_left List.not_mem_nil

theorem foremost_of_arranged (h : Arranged [] (instructions p) ordered []) {order : List String}
    (horder : p.Ordered order) : order = ordered.map Instruction.id ∨
      p.places (ordered.map Instruction.id) < p.places order := by
  have hneeds : ∀ step ∈ instructions p, ∀ i ∈ step.inputs, p.Feeds i.id step.id := by
    intro step hstep i hi
    rw [← feeds_eq hdeclared.names]
    exact ⟨step, hstep, rfl, List.mem_map_of_mem hi⟩
  have hperm : order.Perm ((instructions p).map Instruction.id) := by
    rw [ids_instructions hdeclared.names]
    exact horder.perm
  exact h.foremost hneeds (pairwise_instructions hdeclared.names) hperm
    (behind_of_forall fun front target back hcut source hsource =>
      .inr (horder.behind front target back hcut source hsource))

theorem inputs_of_arranged (h : Arranged [] (instructions p) ordered []) {step : Instruction}
    (hstep : step ∈ ordered) : (step.inputs.map PlanInput.id).Nodup ∧
      ∃ task ∈ p.tasks, task.name = step.id ∧
        step.inputs = ((p.sourcesOf task.name).map fun source => ⟨source, true⟩) ++
          (p.named task).map fun id => ⟨id, false⟩ := by
  have hmem := h.perm.subset (List.mem_append_left [] hstep)
  rw [instructions_eq hdeclared.names] at hmem
  obtain ⟨task, htask, rfl⟩ := List.mem_map.1 hmem
  exact ⟨nodup_inputsOf hdeclared.once task, task, htask, rfl, inputsOf_eq p task⟩

end Parsed

/-- A pipeline that a text declares has a plan exactly if no task depends on itself by any
way.  The plan is then the first of the orders in which every task stands behind all that
it depends on, and each step has the sources of its edges as inputs, and behind them the
tasks that its tokens name.  Otherwise the tasks on a cycle, and those that depend on one, are
reported in the order of the text. -/
theorem ofParsed_of_parse {text : String} (hparse : Source.parse text = .ok p) :
    ((∃ plan, ofParsed p = .ok plan) ↔ ∀ name, ¬TransGen p.Feeds name name) ∧
    (∀ plan, ofParsed p = .ok plan →
      p.Ordered plan.order ∧
      (∀ order, p.Ordered order → order = plan.order ∨ p.places plan.order < p.places order) ∧
      ∀ step ∈ plan.tasks, (step.inputs.map PlanInput.id).Nodup ∧ ∃ task ∈ p.tasks, task.name = step.id ∧
        step.inputs = ((p.sourcesOf task.name).map fun source => ⟨source, true⟩) ++
          (p.named task).map fun id => ⟨id, false⟩) ∧
    ∀ error, ofParsed p = .error error → ∃ names, error = ⟨.cycle names, none⟩ ∧ names.Sublist p.names ∧
      ∀ name, name ∈ names ↔ ∃ on, TransGen p.Feeds on on ∧ ReflTransGen p.Feeds on name := by
  have hdeclared := Source.declared_of_parse hparse
  have hnames : p.names.Nodup := hdeclared.names
  rcases ofParsed_cases hnames with ⟨ordered, harranged, hplan⟩ | ⟨ordered, stuck, hstuck, harranged, hplan⟩
  · have hstuck := mem_stuck hdeclared harranged
    refine ⟨⟨fun _ name hcycle => ?_, fun _ => ⟨_, hplan⟩⟩, fun plan heq => ?_, fun error heq => ?_⟩
    · exact List.not_mem_nil ((hstuck name).2 ⟨name, hcycle, .refl⟩)
    · rw [hplan] at heq
      cases heq
      exact ⟨ordered_of_arranged hdeclared harranged,
        fun order horder => foremost_of_arranged hdeclared harranged horder,
        fun step hstep => inputs_of_arranged hdeclared harranged hstep⟩
    · rw [hplan] at heq
      cases heq
  · have hmem := mem_stuck hdeclared harranged
    refine ⟨⟨fun ⟨plan, heq⟩ => ?_, fun hacyclic => ?_⟩, fun plan heq => ?_, fun error heq => ?_⟩
    · rw [hplan] at heq
      cases heq
    · obtain ⟨step, hstep⟩ := List.exists_mem_of_ne_nil _ hstuck
      obtain ⟨on, hcycle, -⟩ := (hmem step.id).1 (List.mem_map_of_mem hstep)
      exact absurd hcycle (hacyclic on)
    · rw [hplan] at heq
      cases heq
    · rw [hplan] at heq
      cases heq
      have hsublist := harranged.sublist.map Instruction.id
      rw [ids_instructions hnames] at hsublist
      exact ⟨_, rfl, hsublist, hmem⟩

/-- A task above the two that it depends on, by an edge and by a token. -/
def fanSource : String :=
  "total [type=sum values=<$(price)>]\nrate [type=http]\nprice [type=http]\nrate -> total"

def fanPipeline : ParsedSource :=
  { tasks := [⟨"node_1", "total", .sum, Dict.ofList [("values", .verbatim "$(price)")], 1⟩,
      ⟨"node_2", "rate", .http, Dict.empty, 2⟩, ⟨"node_3", "price", .http, Dict.empty, 3⟩]
    edges := [⟨"rate", "total"⟩] }

theorem ofParsed_of_parse_fanSource :
    Source.parse fanSource = .ok fanPipeline ∧ (∀ name, ¬TransGen fanPipeline.Feeds name name) ∧
      fanPipeline.Ordered ["rate", "price", "total"] ∧
      ∀ order, fanPipeline.Ordered order →
        order = ["rate", "price", "total"] ∨ [1, 2, 0] < fanPipeline.places order := by
  have hparse : Source.parse fanSource = .ok fanPipeline := by decide +kernel
  have hplan : ofParsed fanPipeline = .ok ⟨[⟨"rate", []⟩, ⟨"price", []⟩,
      ⟨"total", [⟨"rate", true⟩, ⟨"price", false⟩]⟩]⟩ := by decide +kernel
  obtain ⟨hiff, hplans, -⟩ := ofParsed_of_parse hparse
  obtain ⟨hordered, hforemost, -⟩ := hplans _ hplan
  exact ⟨hparse, hiff.1 ⟨_, hplan⟩, hordered, hforemost⟩

end Plan
end JobPipeline
