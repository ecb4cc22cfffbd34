import JobPipeline.Proofs.Dict
import JobPipeline.Proofs.Source.Reconstruction
import Mathlib.Data.List.Perm.Subperm
import Mathlib.Order.Bounds.Basic

/-
The rows of a layout are the lengths of the longest ways.

A round over the edges puts each target below its source.  After as many rounds as a way
has edges, the task it ends at is at least as deep as the way is long, and no task is ever
deeper than some way to it is long.  Where no way comes back to where it began, the tasks of
a way are distinct, so it has no more edges than there are tasks.  Hence one round for
each task is enough, in whatever order the rounds go over the edges.
-/
namespace JobPipeline

open Relation (TransGen)

/-- A way of so many edges ends at the task. -/
inductive WayTo (edges : List ParsedEdge) : Nat → String → Prop
  | nowhere (name : String) : WayTo edges 0 name
  | step {n : Nat} {a b : String} : WayTo edges n a → Leads edges a b → WayTo edges (n + 1) b

namespace WayTo

variable {edges more : List ParsedEdge} {n : Nat} {name : String}

theorem mono (h : edges ⊆ more) (hway : WayTo edges n name) : WayTo more n name := by
  induction hway with
  | nowhere name => exact .nowhere name
  | step _ hleads ih => exact .step ih (h hleads)

theorem perm_iff (h : edges.Perm more) : WayTo edges n name ↔ WayTo more n name :=
  ⟨mono h.subset, mono h.symm.subset⟩

/-- The tasks that a way leaves are as many as its edges, and distinct. -/
theorem exists_left (hacyclic : ∀ a, ¬TransGen (Leads edges) a a) (hway : WayTo edges n name) :
    ∃ left : List String, left.length = n ∧ left.Nodup ∧
      ∀ a ∈ left, TransGen (Leads edges) a name ∧ ∃ b, Leads edges a b := by
  induction hway with
  | nowhere name => exact ⟨[], rfl, List.nodup_nil, fun a ha => absurd ha List.not_mem_nil⟩
  | @step n a b _ hleads ih =>
    obtain ⟨left, hlength, hnodup, hleft⟩ := ih
    refine ⟨a :: left, by rw [List.length_cons, hlength], ?_, fun c hc => ?_⟩
    · exact List.nodup_cons.2 ⟨fun ha => hacyclic a (hleft a ha).1, hnodup⟩
    · rcases List.mem_cons.1 hc with rfl | hc
      · exact ⟨.single hleads, b, hleads⟩
      · exact ⟨(hleft c hc).1.tail hleads, (hleft c hc).2⟩

theorem le_length {names : List String} (hends : ∀ e ∈ edges, e.source ∈ names)
    (hacyclic : ∀ a, ¬TransGen (Leads edges) a a) (hway : WayTo edges n name) : n ≤ names.length := by
  obtain ⟨left, hlength, hnodup, hleft⟩ := hway.exists_left hacyclic
  have hnames : left ⊆ names := by
    intro a ha
    obtain ⟨-, b, hleads⟩ := hleft a ha
    exact hends ⟨a, b⟩ hleads
  rw [← hlength]
  exact (hnodup.subperm hnames).length_le

end WayTo

namespace Layout

variable {edges fewer : List ParsedEdge} {rows : Dict Nat} {name : String}

/-! ## One edge -/

theorem rowOf_lower (rows : Dict Nat) (e : ParsedEdge) (name : String) :
    rowOf (lower rows e) name =
      if e.target = name then max (rowOf rows name) (rowOf rows e.source + 1) else rowOf rows name := by
  rw [lower]
  by_cases heq : e.target = name
  · subst heq
    rw [if_pos rfl]
    split
    · next hlt =>
      rw [rowOf, Dict.find?_insert_self, Option.getD_some]
      omega
    · omega
  · rw [if_neg heq]
    split
    · rw [rowOf, Dict.find?_insert_of_ne _ heq, rowOf]
    · rfl

theorem le_rowOf_lower (rows : Dict Nat) (e : ParsedEdge) (name : String) :
    rowOf rows name ≤ rowOf (lower rows e) name := by
  rw [rowOf_lower]
  split
  · exact Nat.le_max_left ..
  · exact Nat.le_refl _

theorem lt_rowOf_lower (rows : Dict Nat) (e : ParsedEdge) :
    rowOf rows e.source < rowOf (lower rows e) e.target := by
  rw [rowOf_lower, if_pos rfl]
  exact Nat.le_max_right ..

/-! ## One round -/

theorem le_rowOf_round (edges : List ParsedEdge) (rows : Dict Nat) (name : String) :
    rowOf rows name ≤ rowOf (edges.foldl lower rows) name := by
  induction edges generalizing rows with
  | nil => exact Nat.le_refl _
  | cons e edges ih => exact Nat.le_trans (le_rowOf_lower rows e name) (ih (lower rows e))

/-- A round puts every target below the place that its source had before. -/
theorem lt_rowOf_round {e : ParsedEdge} (he : e ∈ edges) (rows : Dict Nat) :
    rowOf rows e.source < rowOf (edges.foldl lower rows) e.target := by
  induction edges generalizing rows with
  | nil => cases he
  | cons first edges ih =>
    rcases List.mem_cons.1 he with rfl | he
    · exact Nat.lt_of_lt_of_le (lt_rowOf_lower rows e) (le_rowOf_round edges _ _)
    · exact Nat.lt_of_le_of_lt (le_rowOf_lower rows first e.source) (ih he (lower rows first))

/-- Every edge leads downwards. -/
def Settled (edges : List ParsedEdge) (rows : Dict Nat) : Prop :=
  ∀ e ∈ edges, rowOf rows e.source < rowOf rows e.target

theorem round_eq_self_iff : edges.foldl lower rows = rows ↔ Settled edges rows := by
  constructor
  · intro h e he
    have hlt := lt_rowOf_round he rows
    rwa [h] at hlt
  · intro h
    induction edges with
    | nil => rfl
    | cons e edges ih =>
      obtain ⟨he, hrest⟩ := List.forall_mem_cons.1 h
      rw [List.foldl_cons, lower, if_neg (by omega)]
      exact ih hrest

theorem Settled.le_rowOf (h : Settled edges rows) {n : Nat} (hway : WayTo edges n name) :
    n ≤ rowOf rows name := by
  induction hway with
  | nowhere name => exact Nat.zero_le _
  | step _ hleads ih => exact Nat.lt_of_le_of_lt ih (h _ hleads)

/-! ## Any number of rounds -/

/-- Ways of so many edges at the most are all accounted for. -/
def Reached (edges : List ParsedEdge) (rounds : Nat) (rows : Dict Nat) : Prop :=
  ∀ n name, WayTo edges n name → n ≤ rounds → n ≤ rowOf rows name

theorem Reached.round {rounds : Nat} (h : Reached edges rounds rows) :
    Reached edges (rounds + 1) (edges.foldl lower rows) := by
  intro n name hway hn
  cases hway with
  | nowhere => exact Nat.zero_le _
  | @step n a _ hway hleads =>
    have hbefore : n ≤ rowOf rows a := h n a hway (Nat.le_of_succ_le_succ hn)
    exact Nat.lt_of_le_of_lt hbefore (lt_rowOf_round hleads rows)

theorem Reached.settle {rounds : Nat} (h : Reached edges rounds rows) (fuel : Nat) :
    Reached edges (rounds + fuel) (settle edges fuel rows) := by
  induction fuel generalizing rounds rows with
  | zero => exact h
  | succ fuel ih =>
    rw [Layout.settle]
    split
    · next hsame =>
      -- Nothing moved, so every edge leads downwards, and no way is longer than that.
      have hsettled : Settled edges rows := round_eq_self_iff.1 (Dict.ext hsame)
      exact fun n name hway _ => hsettled.le_rowOf hway
    · rw [Nat.add_comm fuel 1, ← Nat.add_assoc]
      exact ih h.round

/-- No task is deeper than some way to it is long. -/
def Grounded (edges : List ParsedEdge) (rows : Dict Nat) : Prop :=
  ∀ name, WayTo edges (rowOf rows name) name

theorem Grounded.lower (h : Grounded edges rows) {e : ParsedEdge} (he : e ∈ edges) :
    Grounded edges (lower rows e) := by
  intro name
  rw [rowOf_lower]
  split
  · next heq =>
    rcases Nat.le_total (rowOf rows e.source + 1) (rowOf rows name) with hle | hle
    · rw [Nat.max_eq_left hle]
      exact h name
    · rw [Nat.max_eq_right hle, ← heq]
      exact .step (h e.source) he
  · exact h name

theorem Grounded.round (h : Grounded edges rows) (hfewer : fewer ⊆ edges) :
    Grounded edges (fewer.foldl Layout.lower rows) := by
  induction fewer generalizing rows with
  | nil => exact h
  | cons e fewer ih =>
    obtain ⟨he, hrest⟩ := List.cons_subset.1 hfewer
    exact ih (h.lower he) hrest

theorem Grounded.settle (h : Grounded edges rows) (fuel : Nat) :
    Grounded edges (settle edges fuel rows) := by
  induction fuel generalizing rows with
  | zero => exact h
  | succ fuel ih =>
    rw [Layout.settle]
    split
    · exact h
    · exact ih (h.round (List.Subset.refl edges))

theorem grounded_empty (edges : List ParsedEdge) : Grounded edges Dict.empty :=
  fun name => .nowhere name

/-! ## One round for each task -/

section

variable {names : List String} (hends : ∀ e ∈ edges, e.source ∈ names)
  (hacyclic : ∀ a, ¬TransGen (Leads edges) a a)
include hends hacyclic

theorem isGreatest_settle (name : String) :
    IsGreatest {n | WayTo edges n name} (rowOf (settle edges names.length Dict.empty) name) := by
  have hreached : Reached edges 0 Dict.empty := fun n _ _ hn => Nat.le_trans hn (Nat.zero_le _)
  refine ⟨(grounded_empty edges).settle names.length name, fun n hway => ?_⟩
  refine hreached.settle names.length n name hway ?_
  rw [Nat.zero_add]
  exact WayTo.le_length hends hacyclic hway

/-- One round more changes nothing. -/
theorem settled_settle : Settled edges (settle edges names.length Dict.empty) := by
  intro e he
  have hway := (isGreatest_settle hends hacyclic e.source).1
  exact (isGreatest_settle hends hacyclic e.target).2 (WayTo.step hway he)

/-- The order of the edges does not matter. -/
theorem rowOf_settle_perm {reordered : List ParsedEdge} (hperm : reordered.Perm edges) (name : String) :
    rowOf (settle reordered names.length Dict.empty) name =
      rowOf (settle edges names.length Dict.empty) name := by
  have hleads : ∀ a b, Leads reordered a b → Leads edges a b := fun a b h => hperm.mem_iff.1 h
  have hgreatest := isGreatest_settle (fun e he => hends e (hperm.mem_iff.1 he))
    (fun a hcycle => hacyclic a (TransGen.mono hleads a a hcycle)) name
  have hways : {n | WayTo reordered n name} = {n | WayTo edges n name} :=
    Set.ext fun n => WayTo.perm_iff hperm
  rw [hways] at hgreatest
  exact hgreatest.unique (isGreatest_settle hends hacyclic name)

end

end Layout
end JobPipeline
