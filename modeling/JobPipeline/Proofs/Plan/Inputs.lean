import JobPipeline.Proofs.Dict
import JobPipeline.Proofs.Plan.Arranging
import JobPipeline.Proofs.Source.Parsing

/-
The inputs of a step.

With distinct names every task has its edges as inputs, and behind them the tasks
that its tokens name and that no edge has listed.
-/
namespace JobPipeline
namespace Plan

open Source (declares_iff)

variable {p : ParsedSource} {task : ParsedTask}

def inputsOf (p : ParsedSource) (task : ParsedTask) : List PlanInput :=
  (referenceIds task).foldl (addReference p task)
    ((p.sourcesOf task.name).map fun source => ⟨source, true⟩)

theorem instructionsFrom_eq (p : ParsedSource) {tasks : List ParsedTask}
    (hnames : (tasks.map ParsedTask.name).Nodup) :
    instructionsFrom p tasks = tasks.map fun task => ⟨task.name, inputsOf p task⟩ := by
  induction tasks with
  | nil => rfl
  | cons task later ih =>
    rw [List.map_cons, List.nodup_cons] at hnames
    have hlast : ¬Source.declares later task.name = true := fun h => hnames.1 (declares_iff.1 h)
    rw [instructionsFrom, edgeInputs, if_neg hlast, ih hnames.2]
    rfl

theorem instructions_eq (hnames : (p.tasks.map ParsedTask.name).Nodup) :
    instructions p = p.tasks.map fun task => ⟨task.name, inputsOf p task⟩ :=
  instructionsFrom_eq p hnames

theorem ids_instructions (hnames : (p.tasks.map ParsedTask.name).Nodup) :
    (instructions p).map Instruction.id = p.tasks.map ParsedTask.name := by
  rw [instructions_eq hnames, List.map_map]
  rfl

/-! ## Tokens -/

/-- A name that a token may add to the inputs of a task. -/
def Added (p : ParsedSource) (task : ParsedTask) (name : String) : Prop :=
  name ∈ p.tasks.map ParsedTask.name ∧ name ≠ task.name

theorem addReference_of_added {inputs : List PlanInput} {name : String} (h : Added p task name)
    (hnew : name ∉ inputs.map PlanInput.id) :
    addReference p task inputs name = inputs ++ [⟨name, false⟩] := by
  have hlisted : (inputs.any fun i => i.id = name) = false := by
    rw [Bool.eq_false_iff]
    intro hany
    obtain ⟨i, hi, hid⟩ := List.any_eq_true.1 hany
    exact hnew (List.mem_map.2 ⟨i, hi, of_decide_eq_true hid⟩)
  rw [addReference, declares_iff.2 h.1, decide_eq_true h.2, hlisted]
  rfl

theorem addReference_of_listed {inputs : List PlanInput} {name : String}
    (hlisted : name ∈ inputs.map PlanInput.id) : addReference p task inputs name = inputs := by
  obtain ⟨i, hi, rfl⟩ := List.mem_map.1 hlisted
  have hany : (inputs.any fun other => other.id = i.id) = true :=
    List.any_eq_true.2 ⟨i, hi, decide_eq_true rfl⟩
  rw [addReference, hany]
  simp

theorem addReference_of_not_added {inputs : List PlanInput} {name : String}
    (h : ¬Added p task name) : addReference p task inputs name = inputs := by
  rw [addReference, if_neg]
  intro hif
  simp only [Bool.and_eq_true, decide_eq_true_eq] at hif
  exact h ⟨declares_iff.1 hif.1.1, hif.1.2⟩

/-- Each input that tokens add is none that is handed over. -/
theorem propagated_foldl (names : List String) (inputs : List PlanInput) :
    (names.foldl (addReference p task) inputs).filter PlanInput.propagates =
      inputs.filter PlanInput.propagates := by
  induction names generalizing inputs with
  | nil => rfl
  | cons name names ih =>
    rw [List.foldl_cons, ih, addReference]
    split
    · rw [List.filter_append]
      exact List.append_nil _
    · rfl

theorem mem_foldl {names : List String} {inputs : List PlanInput} {name : String} :
    name ∈ (names.foldl (addReference p task) inputs).map PlanInput.id ↔
      name ∈ inputs.map PlanInput.id ∨ name ∈ names ∧ Added p task name := by
  induction names generalizing inputs with
  | nil => simp
  | cons first names ih =>
    have hstep : name ∈ (addReference p task inputs first).map PlanInput.id ↔
        name ∈ inputs.map PlanInput.id ∨ name = first ∧ Added p task name := by
      by_cases hlisted : first ∈ inputs.map PlanInput.id
      · rw [addReference_of_listed hlisted]
        exact ⟨.inl, fun h => h.elim id fun h => h.1 ▸ hlisted⟩
      · by_cases hadded : Added p task first
        · rw [addReference_of_added hadded hlisted, List.map_append, List.mem_append]
          refine or_congr_right ⟨fun h => ?_, fun h => ?_⟩
          · obtain rfl := List.mem_singleton.1 h
            exact ⟨rfl, hadded⟩
          · exact List.mem_singleton.2 h.1
        · rw [addReference_of_not_added hadded]
          exact ⟨.inl, fun h => h.elim id fun h => absurd (h.1 ▸ h.2) hadded⟩
    rw [List.foldl_cons, ih, hstep, List.mem_cons, or_and_right, or_assoc]

theorem mem_sourcesOf {source name : String} :
    source ∈ p.sourcesOf name ↔ (⟨source, name⟩ : ParsedEdge) ∈ p.edges := by
  rw [ParsedSource.sourcesOf, List.mem_map]
  constructor
  · rintro ⟨e, he, rfl⟩
    obtain ⟨hmem, htarget⟩ := List.mem_filter.1 he
    obtain rfl := of_decide_eq_true htarget
    exact hmem
  · intro h
    exact ⟨_, List.mem_filter.2 ⟨h, decide_eq_true rfl⟩, rfl⟩

theorem ids_sources (sources : List String) :
    (sources.map fun source => (⟨source, true⟩ : PlanInput)).map PlanInput.id = sources := by
  rw [List.map_map]
  exact List.map_id' sources

/-- A task needs the tasks that lead to it and those that its tokens name. -/
theorem mem_inputsOf {name : String} :
    name ∈ (inputsOf p task).map PlanInput.id ↔
      (⟨name, task.name⟩ : ParsedEdge) ∈ p.edges ∨ name ∈ referenceIds task ∧ Added p task name := by
  rw [inputsOf, mem_foldl, ids_sources, mem_sourcesOf]

theorem propagated_inputsOf :
    ((inputsOf p task).filter PlanInput.propagates).map PlanInput.id = p.sourcesOf task.name := by
  rw [inputsOf, propagated_foldl]
  induction p.sourcesOf task.name with
  | nil => rfl
  | cons source sources ih =>
    rw [List.map_cons, List.filter_cons_of_pos rfl, List.map_cons, ih]

/-- A name is given by an attribute as often as a token of the attribute names it. -/
theorem mem_referenceIds {pairs : List (String × String)} (hkeys : (pairs.map Prod.fst).Nodup)
    (htask : task.attributes = Dict.ofList (pairs.map fun e => (e.1, FieldText.verbatim e.2)))
    {name : String} :
    name ∈ referenceIds task ↔ ∃ e ∈ pairs, ∃ r ∈ Field.findReferences e.2, r.id = name := by
  have hmem : ∀ text, text ∈ task.attributes.values ↔ ∃ e ∈ pairs, FieldText.verbatim e.2 = text := by
    intro text
    rw [htask, Dict.mem_values_ofList]
    · simp
    · rw [List.map_map]
      exact hkeys
  rw [referenceIds, List.mem_flatMap]
  constructor
  · rintro ⟨text, htext, hname⟩
    obtain ⟨e, he, rfl⟩ := (hmem text).1 htext
    obtain ⟨r, hr, hid⟩ := List.mem_map.1 hname
    exact ⟨e, he, r, hr, hid⟩
  · rintro ⟨e, he, r, hr, hid⟩
    exact ⟨_, (hmem _).2 ⟨e, he, rfl⟩, List.mem_map.2 ⟨r, hr, hid⟩⟩

/-! ## The steps of a plan -/

theorem needs_iff (hnames : (p.tasks.map ParsedTask.name).Nodup) {u v : String} :
    Needs (instructions p) u v ↔
      ∃ task ∈ p.tasks, task.name = v ∧
        ((⟨u, v⟩ : ParsedEdge) ∈ p.edges ∨ u ∈ referenceIds task ∧ Added p task u) := by
  rw [instructions_eq hnames, Needs]
  constructor
  · rintro ⟨step, hstep, rfl, hu⟩
    obtain ⟨task, htask, rfl⟩ := List.mem_map.1 hstep
    exact ⟨task, htask, rfl, mem_inputsOf.1 hu⟩
  · rintro ⟨task, htask, rfl, hu⟩
    exact ⟨_, List.mem_map_of_mem htask, rfl, mem_inputsOf.2 hu⟩

/-- Whether there is a plan or not, it comes from an arrangement of the steps. -/
theorem ofParsed_eq (hnames : (p.tasks.map ParsedTask.name).Nodup) :
    ∃ ordered stuck, Arranged [] (instructions p) ordered stuck ∧
      ofParsed p = if stuck = [] then .ok ⟨ordered⟩
        else .error ⟨.cycle (stuck.map Instruction.id), none⟩ := by
  have h := @arranged_arrange _ [] _ (Nat.le_refl (instructions p).length)
    (ids_instructions hnames ▸ hnames)
  rw [Waiting.since_nil] at h
  refine ⟨_, _, h, ?_⟩
  rw [ofParsed]
  cases arrange (instructions p).length ((instructions p).map Waiting.of) with
  | mk ordered stuck => cases stuck <;> rfl

/-- A plan names every task once. -/
theorem nodup_order {text : String} {plan : Plan} (h : ofSource text = .ok plan) : plan.order.Nodup := by
  rw [ofSource] at h
  split at h
  · cases h
  · next p hparse =>
    have hnames := Source.nodup_of_parse hparse
    obtain ⟨ordered, stuck, harranged, hplan⟩ := ofParsed_eq hnames
    rw [hplan] at h
    split at h
    · next hstuck =>
      cases h
      have hperm := harranged.perm
      rw [hstuck, List.append_nil] at hperm
      refine (hperm.map Instruction.id).nodup_iff.2 ?_
      rw [ids_instructions hnames]
      exact hnames
    · cases h

end Plan
end JobPipeline
