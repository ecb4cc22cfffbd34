import JobPipeline.Proofs.Plan.Inputs
import Mathlib.Logic.Function.Basic

/-
Plans under other names.

A plan depends on names only as far as they are told apart, so an injective map of the
names of a pipeline gives its plan under the new names.
-/
namespace JobPipeline

def PlanInput.mapName (f : String → String) (i : PlanInput) : PlanInput := { i with id := f i.id }

def Instruction.mapNames (f : String → String) (step : Instruction) : Instruction :=
  ⟨f step.id, step.inputs.map (PlanInput.mapName f)⟩

/-- A plan with another name in place of each. -/
def Plan.mapNames (f : String → String) (plan : Plan) : Plan :=
  ⟨plan.tasks.map (Instruction.mapNames f)⟩

namespace Plan

/-! ## Other names -/

def Waiting.mapNames (f : String → String) (w : Waiting) : Waiting := ⟨w.step.mapNames f, w.names.map f⟩

/-- A token of the name makes no difference to the inputs of a task. -/
def Idle (p : ParsedSource) (task : ParsedTask) (inputs : List PlanInput) (name : String) : Prop :=
  name ∈ inputs.map PlanInput.id ∨ ¬Added p task name

theorem foldl_filter {p : ParsedSource} {task : ParsedTask} {keep : String → Bool}
    (names : List String) {inputs : List PlanInput}
    (h : ∀ name, keep name = false → Idle p task inputs name) :
    (names.filter keep).foldl (addReference p task) inputs = names.foldl (addReference p task) inputs := by
  induction names generalizing inputs with
  | nil => rfl
  | cons name names ih =>
    rw [List.foldl_cons]
    cases hkeep : keep name with
    | true =>
      rw [List.filter_cons_of_pos hkeep, List.foldl_cons]
      refine ih fun other hother => (h other hother).imp_left fun hmem => ?_
      exact (@mem_foldl p task [name] inputs other).2 (.inl hmem)
    | false =>
      have hsame : addReference p task inputs name = inputs :=
        (h name hkeep).elim addReference_of_listed addReference_of_not_added
      rw [List.filter_cons_of_neg (by rw [hkeep]; exact Bool.false_ne_true), hsame, ih h]

section Injective

variable {f : String → String} {p p' : ParsedSource} {task task' : ParsedTask}

theorem ids_mapName (inputs : List PlanInput) :
    (inputs.map (PlanInput.mapName f)).map PlanInput.id = (inputs.map PlanInput.id).map f := by
  rw [List.map_map, List.map_map]
  rfl

theorem Waiting.of_mapNames (step : Instruction) :
    Waiting.of (step.mapNames f) = (Waiting.of step).mapNames f := by
  rw [of, mapNames, Instruction.mapNames, ids_mapName]
  rfl

theorem firstReady?_mapNames (left : List Waiting) :
    firstReady? (left.map (Waiting.mapNames f)) = (firstReady? left).map fun (before, step, after) =>
      (before.map (Waiting.mapNames f), step.mapNames f, after.map (Waiting.mapNames f)) := by
  induction left with
  | nil => rfl
  | cons w left ih =>
    have hnames : (w.mapNames f).names = [] ↔ w.names = [] := List.map_eq_nil_iff
    rw [List.map_cons, firstReady?, firstReady?]
    by_cases hready : w.names = []
    · rw [if_pos hready, if_pos (hnames.2 hready)]
      rfl
    · rw [if_neg hready, if_neg fun h => hready (hnames.1 h), ih, Option.map_map, Option.map_map]
      rfl

variable (hf : Function.Injective f)

include hf

theorem Waiting.release_mapNames (name : String) (w : Waiting) :
    (w.mapNames f).release (f name) = (w.release name).mapNames f := by
  have hnames : (w.names.map f).filter (· ≠ f name) = (w.names.filter (· ≠ name)).map f := by
    rw [List.filter_map]
    congr 1
    refine List.filter_congr fun other _ => ?_
    exact decide_eq_decide.2 hf.ne_iff
  rw [release, mapNames, hnames]
  rfl

theorem arrange_mapNames (fuel : Nat) (left : List Waiting) :
    arrange fuel (left.map (Waiting.mapNames f)) =
      ((arrange fuel left).1.map (Instruction.mapNames f),
        (arrange fuel left).2.map (Instruction.mapNames f)) := by
  have hsteps : ∀ left : List Waiting, (left.map (Waiting.mapNames f)).map Waiting.step =
      (left.map Waiting.step).map (Instruction.mapNames f) := by
    intro left
    rw [List.map_map, List.map_map]
    rfl
  induction fuel generalizing left with
  | zero => rw [arrange, arrange, hsteps]; rfl
  | succ fuel ih =>
    rw [arrange, arrange, firstReady?_mapNames]
    cases firstReady? left with
    | none => rw [← hsteps]; rfl
    | some result =>
      obtain ⟨before, step, after⟩ := result
      have hlast : ((after.map (Waiting.mapNames f)).any fun w => w.step.id = (step.mapNames f).id) =
          after.any fun w => w.step.id = step.id := by
        rw [List.any_map]
        congr 1
        funext w
        exact decide_eq_decide.2 hf.eq_iff
      have hreleased : ((before ++ after).map (Waiting.mapNames f)).map
          (Waiting.release (step.mapNames f).id) =
          ((before ++ after).map (Waiting.release step.id)).map (Waiting.mapNames f) := by
        rw [List.map_map, List.map_map]
        exact List.map_congr_left fun w _ => Waiting.release_mapNames hf step.id w
      simp only [Option.map_some]
      rw [hlast, ← List.map_append, hreleased]
      cases after.any fun w => w.step.id = step.id with
      | true => simp only [if_true, ih]; rfl
      | false => simp only [Bool.false_eq_true, if_false, ih]; rfl

/-- Steps under other names have their plan under these names. -/
theorem ofParsed_mapNames {p p' : ParsedSource} {plan : Plan}
    (h : instructions p' = (instructions p).map (Instruction.mapNames f))
    (hplan : ofParsed p = .ok plan) : ofParsed p' = .ok (plan.mapNames f) := by
  have hwaiting : ((instructions p).map (Instruction.mapNames f)).map Waiting.of =
      ((instructions p).map Waiting.of).map (Waiting.mapNames f) := by
    rw [List.map_map, List.map_map]
    exact List.map_congr_left fun step _ => Waiting.of_mapNames step
  rw [ofParsed] at hplan ⊢
  rw [h, List.length_map, hwaiting, arrange_mapNames hf]
  revert hplan
  cases arrange (instructions p).length ((instructions p).map Waiting.of) with
  | mk ordered stuck =>
    cases stuck with
    | nil =>
      intro hok
      cases hok
      rfl
    | cons step stuck =>
      intro herror
      cases herror

/-! ## Inputs -/

theorem added_mapName (hdeclared : p'.tasks.map ParsedTask.name = (p.tasks.map ParsedTask.name).map f)
    (hname : task'.name = f task.name) {name : String} :
    Added p' task' (f name) ↔ Added p task name := by
  rw [Added, Added, hdeclared, hname, List.mem_map_of_injective hf, hf.ne_iff]

theorem addReference_mapName
    (hdeclared : p'.tasks.map ParsedTask.name = (p.tasks.map ParsedTask.name).map f)
    (hname : task'.name = f task.name) (inputs : List PlanInput) (name : String) :
    addReference p' task' (inputs.map (PlanInput.mapName f)) (f name) =
      (addReference p task inputs name).map (PlanInput.mapName f) := by
  have hlisted : f name ∈ (inputs.map (PlanInput.mapName f)).map PlanInput.id ↔
      name ∈ inputs.map PlanInput.id := by
    rw [ids_mapName, List.mem_map_of_injective hf]
  by_cases hmem : name ∈ inputs.map PlanInput.id
  · rw [addReference_of_listed hmem, addReference_of_listed (hlisted.2 hmem)]
  · by_cases hadded : Added p task name
    · rw [addReference_of_added hadded hmem,
        addReference_of_added ((added_mapName hf hdeclared hname).2 hadded) fun h => hmem (hlisted.1 h),
        List.map_append]
      rfl
    · rw [addReference_of_not_added hadded,
        addReference_of_not_added fun h => hadded ((added_mapName hf hdeclared hname).1 h)]

theorem foldl_mapName
    (hdeclared : p'.tasks.map ParsedTask.name = (p.tasks.map ParsedTask.name).map f)
    (hname : task'.name = f task.name) (names : List String) (inputs : List PlanInput) :
    (names.map f).foldl (addReference p' task') (inputs.map (PlanInput.mapName f)) =
      (names.foldl (addReference p task) inputs).map (PlanInput.mapName f) := by
  induction names generalizing inputs with
  | nil => rfl
  | cons name names ih =>
    rw [List.map_cons, List.foldl_cons, List.foldl_cons, addReference_mapName hf hdeclared hname, ih]

theorem idle_mapName (hdeclared : p'.tasks.map ParsedTask.name = (p.tasks.map ParsedTask.name).map f)
    (hname : task'.name = f task.name) {inputs : List PlanInput} {name : String} :
    Idle p' task' (inputs.map (PlanInput.mapName f)) (f name) ↔ Idle p task inputs name := by
  rw [Idle, Idle, added_mapName hf hdeclared hname, ids_mapName, List.mem_map_of_injective hf]

/-- Tokens that agree apart from idle names give the same inputs under the other names. -/
theorem foldl_mapName_of_idle
    (hdeclared : p'.tasks.map ParsedTask.name = (p.tasks.map ParsedTask.name).map f)
    (hname : task'.name = f task.name) {keep : String → Bool} {names names' : List String}
    {inputs : List PlanInput} (hidle : ∀ name, keep name = false → Idle p task inputs name)
    (honto : ∀ name, keep name = false → ∃ other, keep other = false ∧ f other = name)
    (hnames : names'.filter keep = (names.filter keep).map f) :
    names'.foldl (addReference p' task') (inputs.map (PlanInput.mapName f)) =
      (names.foldl (addReference p task) inputs).map (PlanInput.mapName f) := by
  have hidle' : ∀ name, keep name = false →
      Idle p' task' (inputs.map (PlanInput.mapName f)) name := by
    intro name hkeep
    obtain ⟨other, hother, rfl⟩ := honto name hkeep
    exact (idle_mapName hf hdeclared hname).2 (hidle other hother)
  rw [← foldl_filter names' hidle', hnames, foldl_mapName hf hdeclared hname, foldl_filter names hidle]

theorem sourcesOf_mapName (hedges : p'.edges = p.edges.map fun e => ⟨f e.source, f e.target⟩)
    (name : String) : p'.sourcesOf (f name) = (p.sourcesOf name).map f := by
  rw [ParsedSource.sourcesOf, ParsedSource.sourcesOf, hedges, List.filter_map, List.map_map, List.map_map]
  have hsame : (p.edges.filter ((fun e : ParsedEdge => e.target = f name) ∘ fun e =>
      ⟨f e.source, f e.target⟩)) = p.edges.filter fun e => e.target = name :=
    List.filter_congr fun e _ => decide_eq_decide.2 hf.eq_iff
  rw [hsame]
  rfl

end Injective

end Plan
end JobPipeline
