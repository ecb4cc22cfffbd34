import JobPipeline.Plan.Basic
import Mathlib.Data.Fintype.Pigeonhole
import Mathlib.Data.Fintype.Sets
import Mathlib.Data.List.Nodup
import Mathlib.Logic.Relation

/-
The order of a plan.

Steps are put in order one at a time, and some may be left.  `Arranged` is this
course.  A step that is placed stands behind everything it needs, and one that is
left needs another that is left, so what is left are the steps on a cycle and the
steps behind one.
-/
namespace JobPipeline
namespace Plan

open Relation (ReflTransGen TransGen)

/-- A step has the result of another among its inputs. -/
def Needs (steps : List Instruction) (source target : String) : Prop :=
  ∃ step ∈ steps, step.id = target ∧ source ∈ step.inputs.map PlanInput.id

/-! ## The course -/

def Ready (done : List String) (step : Instruction) : Prop := ∀ i ∈ step.inputs, i.id ∈ done

/-- With some names done, the steps are placed in this order and these are left.  The next
to be placed is the first that is ready. -/
inductive Arranged : List String → (steps ordered stuck : List Instruction) → Prop
  | stop {done : List String} {steps : List Instruction} :
      (∀ step ∈ steps, ¬Ready done step) → Arranged done steps [] steps
  | place {done : List String} {step : Instruction} {before after ordered stuck : List Instruction} :
      (∀ other ∈ before, ¬Ready done other) → Ready done step → Arranged (step.id :: done) (before ++ after) ordered stuck →
      Arranged done (before ++ step :: after) (step :: ordered) stuck

/-- A step with the inputs that are not done yet. -/
def Waiting.since (done : List String) (step : Instruction) : Waiting :=
  ⟨step, (step.inputs.map PlanInput.id).filter (· ∉ done)⟩

theorem Waiting.since_nil : Waiting.since [] = Waiting.of := by
  funext step
  simp [since, of]

theorem Waiting.release_since (done : List String) (name : String) (step : Instruction) :
    (Waiting.since done step).release name = Waiting.since (name :: done) step := by
  rw [release, since, since, List.filter_filter]
  congr 1
  apply List.filter_congr
  intro other _
  simp [not_or]

theorem Waiting.names_since (done : List String) (step : Instruction) :
    (Waiting.since done step).names = [] ↔ Ready done step := by
  simp [since, Ready]

theorem firstReady?_since (done : List String) (steps : List Instruction) :
    (firstReady? (steps.map (Waiting.since done)) = none ∧ ∀ step ∈ steps, ¬Ready done step) ∨
    ∃ before step after, steps = before ++ step :: after ∧
      (∀ other ∈ before, ¬Ready done other) ∧ Ready done step ∧
      firstReady? (steps.map (Waiting.since done)) =
        some (before.map (Waiting.since done), step, after.map (Waiting.since done)) := by
  induction steps with
  | nil => exact .inl ⟨rfl, by simp⟩
  | cons first rest ih =>
    rw [List.map_cons, firstReady?]
    by_cases hready : Ready done first
    · rw [if_pos ((Waiting.names_since done first).2 hready)]
      exact .inr ⟨[], first, rest, rfl, by simp, hready, rfl⟩
    · rw [if_neg fun hnames => hready ((Waiting.names_since done first).1 hnames)]
      rcases ih with ⟨hnone, hall⟩ | ⟨before, step, after, rfl, hbefore, hstep, hsome⟩
      · refine .inl ⟨by rw [hnone]; rfl, ?_⟩
        rintro step (_ | ⟨_, hmem⟩)
        · exact hready
        · exact hall step hmem
      · exact .inr ⟨first :: before, step, after, rfl, List.forall_mem_cons.2 ⟨hready, hbefore⟩, hstep,
          by rw [hsome]; rfl⟩

/-- As many rounds as there are steps are enough. -/
theorem arranged_arrange {fuel : Nat} {done : List String} {steps : List Instruction}
    (hfuel : steps.length ≤ fuel) (hids : (steps.map Instruction.id).Nodup) :
    Arranged done steps (arrange fuel (steps.map (Waiting.since done))).1
      (arrange fuel (steps.map (Waiting.since done))).2 := by
  have hsteps : ∀ (done : List String) (steps : List Instruction),
      (steps.map (Waiting.since done)).map Waiting.step = steps := by
    intro done steps
    rw [List.map_map]
    exact List.map_id' steps
  induction fuel generalizing done steps with
  | zero =>
    have hnil : steps = [] := List.length_eq_zero_iff.1 (Nat.le_zero.1 hfuel)
    subst hnil
    exact .stop (by simp)
  | succ fuel ih =>
    rw [arrange]
    rcases firstReady?_since done steps with
      ⟨hnone, hall⟩ | ⟨before, step, after, rfl, hbefore, hready, hsome⟩
    · rw [hnone]
      show Arranged done steps [] ((steps.map (Waiting.since done)).map Waiting.step)
      rw [hsteps]
      exact .stop hall
    · rw [hsome]
      have hlength : (before ++ after).length ≤ fuel := by
        rw [List.length_append, List.length_cons] at hfuel
        rw [List.length_append]
        omega
      have hmiddle : (before ++ step :: after).Perm (step :: (before ++ after)) := List.perm_middle
      have hids' := (hmiddle.map Instruction.id).nodup_iff.1 hids
      rw [List.map_cons, List.nodup_cons] at hids'
      have hlast : ((after.map (Waiting.since done)).any fun w => w.step.id = step.id) = false := by
        rw [Bool.eq_false_iff]
        intro hany
        obtain ⟨w, hw, hid⟩ := List.any_eq_true.1 hany
        obtain ⟨other, hother, rfl⟩ := List.mem_map.1 hw
        apply hids'.1
        rw [← of_decide_eq_true hid]
        exact List.mem_map_of_mem (List.mem_append_right before hother)
      have hreleased : (before.map (Waiting.since done) ++ after.map (Waiting.since done)).map
          (Waiting.release step.id) = (before ++ after).map (Waiting.since (step.id :: done)) := by
        rw [← List.map_append, List.map_map]
        apply List.map_congr_left
        intro other _
        exact Waiting.release_since done step.id other
      dsimp only
      rw [hlast, if_neg Bool.false_ne_true, hreleased]
      exact .place hbefore hready (ih hlength hids'.2)

/-! ## What is placed and what is left -/

namespace Arranged

variable {done : List String} {steps ordered stuck : List Instruction}

theorem perm (h : Arranged done steps ordered stuck) : (ordered ++ stuck).Perm steps := by
  induction h with
  | stop => exact List.Perm.refl _
  | place _ _ _ ih => exact (ih.cons _).trans List.perm_middle.symm

theorem sublist (h : Arranged done steps ordered stuck) : stuck.Sublist steps := by
  induction h with
  | stop => exact List.Sublist.refl _
  | place _ _ _ ih => exact ih.trans ((List.sublist_cons_self _ _).append_left _)

/-- What a placed step needs was done before, or is placed in front of it. -/
theorem ready (h : Arranged done steps ordered stuck) {front back : List Instruction}
    {step : Instruction} (hordered : ordered = front ++ step :: back) :
    ∀ i ∈ step.inputs, i.id ∈ done ∨ i.id ∈ front.map Instruction.id := by
  induction h generalizing front with
  | stop => simp at hordered
  | place _ hready _ ih =>
    cases front with
    | nil =>
      obtain ⟨rfl, -⟩ := List.cons.inj hordered
      exact fun i hi => .inl (hready i hi)
    | cons first front =>
      obtain ⟨rfl, hrest⟩ := List.cons.inj hordered
      intro i hi
      rw [List.map_cons, List.mem_cons]
      rcases ih hrest i hi with hdone | hfront
      · rcases List.mem_cons.1 hdone with hfirst | hdone
        · exact .inr (.inl hfirst)
        · exact .inl hdone
      · exact .inr (.inr hfront)

/-- A step that is left needs something that was never done. -/
theorem blocked (h : Arranged done steps ordered stuck) :
    ∀ step ∈ stuck, ∃ i ∈ step.inputs, i.id ∉ done ∧ i.id ∉ ordered.map Instruction.id := by
  induction h with
  | stop hall =>
    intro step hstep
    have hnot := hall step hstep
    simp only [Ready, not_forall] at hnot
    obtain ⟨i, hi, hdone⟩ := hnot
    exact ⟨i, hi, hdone, List.not_mem_nil⟩
  | place _ _ _ ih =>
    intro step hstep
    obtain ⟨i, hi, hdone, hordered⟩ := ih step hstep
    rw [List.mem_cons, not_or] at hdone
    refine ⟨i, hi, hdone.2, ?_⟩
    rw [List.map_cons, List.mem_cons, not_or]
    exact ⟨hdone.1, hordered⟩

end Arranged

/-! ## Cycles -/

/-- In a finite set in which everything has something in front of it, everything is
behind a cycle. -/
theorem exists_cycle {α : Type} [DecidableEq α] {names : List α} {R : α → α → Prop}
    (h : ∀ v ∈ names, ∃ u ∈ names, R u v) {v : α} (hv : v ∈ names) :
    ∃ u, TransGen R u u ∧ ReflTransGen R u v := by
  choose front hmem hfront using h
  let back : ℕ → {x // x ∈ names} := fun n =>
    n.rec ⟨v, hv⟩ fun _ x => ⟨front x.1 x.2, hmem x.1 x.2⟩
  have hstep : ∀ n, R (back (n + 1)).1 (back n).1 := fun n => hfront (back n).1 (back n).2
  have hway : ∀ m k, ReflTransGen R (back (m + k)).1 (back m).1 := by
    intro m k
    induction k with
    | zero => exact ReflTransGen.refl
    | succ k ih => exact ReflTransGen.head (hstep (m + k)) ih
  have hcycle : ∀ m k, TransGen R (back (m + k + 1)).1 (back m).1 := fun m k =>
    TransGen.head' (hstep (m + k)) (hway m k)
  obtain ⟨m, n, hne, hsame⟩ := Finite.exists_ne_map_eq_of_infinite back
  wlog hlt : m < n generalizing m n
  · exact this n m hne.symm hsame.symm (Nat.lt_of_le_of_ne (Nat.not_lt.1 hlt) hne.symm)
  obtain ⟨k, rfl⟩ := Nat.exists_eq_add_of_lt hlt
  have hback := hcycle m k
  rw [← hsame] at hback
  have htop := hway 0 m
  rw [Nat.zero_add] at htop
  exact ⟨(back m).1, hback, htop⟩

section Order

variable {steps ordered stuck : List Instruction}

theorem position?_append {front back : List Instruction} {step : Instruction}
    (hids : ((front ++ step :: back).map Instruction.id).Nodup) :
    position? ⟨front ++ step :: back⟩ step.id = some front.length := by
  rw [List.map_append, List.map_cons] at hids
  have hfresh : front.findIdx? (fun t => t.id = step.id) = none := by
    rw [List.findIdx?_eq_none_iff]
    intro t ht
    rw [decide_eq_false_iff_not]
    intro hid
    exact (List.nodup_append'.1 hids).2.2 (List.mem_map_of_mem ht) (hid ▸ List.mem_cons_self)
  rw [position?, List.findIdx?_append, hfresh, List.findIdx?_cons]
  simp

/-- What a placed step needs has an earlier place. -/
theorem Arranged.before (h : Arranged [] steps ordered stuck) (hids : (steps.map Instruction.id).Nodup)
    {u v : String} (hneeds : Needs steps u v) (hv : v ∈ ordered.map Instruction.id) :
    u ∈ ordered.map Instruction.id ∧
      ∃ i j, position? ⟨ordered⟩ u = some i ∧ position? ⟨ordered⟩ v = some j ∧ i < j := by
  obtain ⟨step, hstep, rfl, hu⟩ := hneeds
  have hall := (h.perm.map Instruction.id).nodup_iff.2 hids
  have hordered : (ordered.map Instruction.id).Nodup := by
    rw [List.map_append] at hall
    exact hall.of_append_left
  obtain ⟨placed, hplaced, hid⟩ := List.mem_map.1 hv
  have hsame : placed = step := List.inj_on_of_nodup_map hids
    (h.perm.subset (List.mem_append_left stuck hplaced)) hstep hid
  subst hsame
  obtain ⟨front, back, rfl⟩ := List.append_of_mem hplaced
  obtain ⟨input, hinput, rfl⟩ := List.mem_map.1 hu
  have hfront : input.id ∈ front.map Instruction.id := by
    rcases h.ready rfl input hinput with hdone | hfront
    · cases hdone
    · exact hfront
  obtain ⟨earlier, hearlier, hsource⟩ := List.mem_map.1 hfront
  obtain ⟨first, middle, rfl⟩ := List.append_of_mem hearlier
  rw [← hsource]
  refine ⟨by simp, first.length, _, ?_, position?_append hordered, by simp⟩
  have hsplit : first ++ earlier :: middle ++ placed :: back =
      first ++ earlier :: (middle ++ placed :: back) := by simp
  rw [hsplit] at hordered ⊢
  exact position?_append hordered

theorem Arranged.before_of_way (h : Arranged [] steps ordered stuck)
    (hids : (steps.map Instruction.id).Nodup) {u v : String} (hway : TransGen (Needs steps) u v)
    (hv : v ∈ ordered.map Instruction.id) :
    u ∈ ordered.map Instruction.id ∧
      ∃ i j, position? ⟨ordered⟩ u = some i ∧ position? ⟨ordered⟩ v = some j ∧ i < j := by
  induction hway with
  | single hneeds => exact h.before hids hneeds hv
  | tail _ hneeds ih =>
    obtain ⟨hmiddle, i, j, hi, hj, hij⟩ := h.before hids hneeds hv
    obtain ⟨hu, k, l, hk, hl, hkl⟩ := ih hmiddle
    rw [hi] at hl
    cases hl
    exact ⟨hu, k, j, hk, hj, hkl.trans hij⟩

/-- The steps that are left are those on a cycle or behind one. -/
theorem Arranged.mem_stuck_iff (h : Arranged [] steps ordered stuck)
    (hids : (steps.map Instruction.id).Nodup)
    (hclosed : ∀ u v, Needs steps u v → u ∈ steps.map Instruction.id) (v : String) :
    v ∈ stuck.map Instruction.id ↔
      ∃ u, TransGen (Needs steps) u u ∧ ReflTransGen (Needs steps) u v := by
  have hsplit : ∀ name, name ∈ steps.map Instruction.id ↔
      name ∈ ordered.map Instruction.id ∨ name ∈ stuck.map Instruction.id := by
    intro name
    rw [← (h.perm.map Instruction.id).mem_iff, List.map_append, List.mem_append]
  constructor
  · refine exists_cycle fun name hname => ?_
    obtain ⟨step, hstep, rfl⟩ := List.mem_map.1 hname
    obtain ⟨input, hinput, -, hnot⟩ := h.blocked step hstep
    have hneeds : Needs steps input.id step.id :=
      ⟨step, h.sublist.subset hstep, rfl, List.mem_map_of_mem hinput⟩
    exact ⟨input.id, ((hsplit input.id).1 (hclosed _ _ hneeds)).resolve_left hnot, hneeds⟩
  · rintro ⟨u, hcycle, hway⟩
    have hto : ∃ w, TransGen (Needs steps) w v := by
      rcases (ReflTransGen.cases_head_iff ..).1 hway with rfl | ⟨w, hfirst, hrest⟩
      · exact ⟨u, hcycle⟩
      · exact ⟨u, TransGen.head' hfirst hrest⟩
    obtain ⟨w, hwv⟩ := hto
    have hv : v ∈ steps.map Instruction.id := by
      obtain ⟨_, _, step, hstep, hid, _⟩ := TransGen.tail'_iff.1 hwv
      exact List.mem_map.2 ⟨step, hstep, hid⟩
    refine ((hsplit v).1 hv).resolve_left fun hordered => ?_
    have hu : u ∈ ordered.map Instruction.id := by
      rcases Relation.reflTransGen_iff_eq_or_transGen.1 hway with rfl | hway
      · exact hordered
      · exact (h.before_of_way hids hway hordered).1
    obtain ⟨-, i, j, hi, hj, hij⟩ := h.before_of_way hids hcycle hu
    rw [hi] at hj
    cases hj
    exact Nat.lt_irrefl i hij

end Order
end Plan
end JobPipeline
