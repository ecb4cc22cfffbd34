import JobPipeline.Graph.Check
import JobPipeline.Proofs.Dict
import JobPipeline.Proofs.Graph.Search
import JobPipeline.Proofs.Plan.Arranging

/-
Cycles found by counting.

Every task has a counter of the edges that lead to it.  A task without any is visited, its
edges are taken, and what they lead to is visited when its counter has come down to zero.
`Counted` is what holds between two visits: each counter is the number of edges into the
task whose sources were not visited, so it is never taken below zero, and the tasks at zero
are those that were visited or wait for it.  Nothing here depends on the order in which the
first of them come, nor on the edges being different.
-/
namespace JobPipeline

open Relation (ReflTransGen TransGen)

namespace TaskGraph

/-! ## Taking edges -/

section TakeEdges

variable {target : String} {rest : List String} {degrees : Dict Nat} {m : Nat}

/-- The counters after one edge and the rest are those after all of them. -/
theorem lowered_cons (hfound : degrees.find? target = some (m + 1)) (id : String) :
    ((degrees.insert target m).find? id).map (· - rest.count id) =
      (degrees.find? id).map (· - (target :: rest).count id) := by
  by_cases heq : target = id
  · subst heq
    rw [Dict.find?_insert_self, hfound, List.count_cons_self, Option.map_some, Option.map_some,
      Nat.add_sub_add_right]
  · rw [Dict.find?_insert_of_ne _ heq, List.count_cons_of_ne heq]

theorem counted_rest (hfound : degrees.find? target = some (m + 1))
    (h : ∀ id ∈ target :: rest, ∃ n, degrees.find? id = some n ∧ (target :: rest).count id ≤ n) :
    ∀ id ∈ rest, ∃ n, (degrees.insert target m).find? id = some n ∧ rest.count id ≤ n := by
  intro id hid
  obtain ⟨n, hn, hle⟩ := h id (List.mem_cons_of_mem _ hid)
  by_cases heq : target = id
  · subst heq
    rw [hfound, Option.some.injEq] at hn
    rw [List.count_cons_self] at hle
    exact ⟨m, Dict.find?_insert_self .., by omega⟩
  · rw [List.count_cons_of_ne heq] at hle
    exact ⟨n, by rw [Dict.find?_insert_of_ne _ heq, hn], hle⟩

/-- A task is freed by the first edge if it was the only one, or by the rest. -/
theorem freed_cons_iff (hfound : degrees.find? target = some (m + 1)) (hcount : rest.count target ≤ m)
    (id : String) :
    (id ∈ if m = 0 then [target] else []) ∨
        (id ∈ rest ∧ (degrees.insert target m).find? id = some (rest.count id)) ↔
      id ∈ target :: rest ∧ degrees.find? id = some ((target :: rest).count id) := by
  by_cases heq : target = id
  · subst heq
    have hzero : rest.count target = 0 ↔ target ∉ rest := List.count_eq_zero
    have hlast : (target ∈ if m = 0 then [target] else []) ↔ m = 0 := by
      split <;> simp_all
    rw [hlast, Dict.find?_insert_self, hfound, List.count_cons_self, Option.some.injEq, Option.some.injEq]
    constructor
    · rintro (hm | ⟨-, hm⟩)
      · exact ⟨List.mem_cons_self, by omega⟩
      · exact ⟨List.mem_cons_self, by omega⟩
    · rintro ⟨-, hm⟩
      by_cases hmem : target ∈ rest
      · exact .inr ⟨hmem, by omega⟩
      · have hnone := hzero.2 hmem
        exact .inl (by omega)
  · have hother : ¬(id ∈ if m = 0 then [target] else []) := by
      split <;> simp [Ne.symm heq]
    rw [Dict.find?_insert_of_ne _ heq, List.count_cons_of_ne heq, List.mem_cons]
    simp [hother, Ne.symm heq]

end TakeEdges

/-- The edges that are taken are among those counted: the counters are lowered by as many as
there were, and the tasks for which these were all are freed, each once. -/
theorem exists_takeEdges? {targets : List String} {degrees : Dict Nat}
    (h : ∀ id ∈ targets, ∃ n, degrees.find? id = some n ∧ targets.count id ≤ n) :
    ∃ degrees' freed, takeEdges? targets degrees = some (degrees', freed) ∧
      (∀ id, degrees'.find? id = (degrees.find? id).map (· - targets.count id)) ∧ freed.Nodup ∧
      ∀ id, id ∈ freed ↔ id ∈ targets ∧ degrees.find? id = some (targets.count id) := by
  induction targets generalizing degrees with
  | nil =>
    refine ⟨degrees, [], rfl, fun id => ?_, List.nodup_nil, by simp⟩
    cases degrees.find? id <;> rfl
  | cons target rest ih =>
    obtain ⟨n, hfound, hcount⟩ := h target List.mem_cons_self
    rw [List.count_cons_self] at hcount
    obtain ⟨m, rfl⟩ : ∃ m, n = m + 1 := ⟨n - 1, by omega⟩
    obtain ⟨degrees', more, htakes, hlower, hnodup, hfreed⟩ := ih (counted_rest hfound h)
    refine ⟨degrees', (if m = 0 then [target] else []) ++ more, ?_, fun id => ?_, ?_, fun id => ?_⟩
    · rw [takeEdges?, takeEdge?, hfound]
      show (takeEdges? rest (degrees.insert target m)).bind _ = _
      rw [htakes]
      rfl
    · rw [hlower, lowered_cons hfound]
    · refine List.nodup_append'.2 ⟨by split <;> simp, hnodup, fun id hid hmore => ?_⟩
      by_cases hm : m = 0
      · -- The counter is at zero, so the rest has no edge to the task.
        rw [if_pos hm, List.mem_singleton] at hid
        obtain ⟨hrest, hleft⟩ := (hfreed id).1 hmore
        rw [hid, Dict.find?_insert_self, hm, Option.some.injEq] at hleft
        have hpositive := List.count_pos_iff.2 hrest
        rw [hid] at hpositive
        omega
      · rw [if_neg hm] at hid
        cases hid
    · rw [List.mem_append, hfreed, freed_cons_iff hfound (Nat.le_of_succ_le_succ hcount)]

/-! ## Between two visits -/

/-- How many edges lead to a task from tasks that are not done. -/
def inflow (edges : List Edge) (done : List String) (id : String) : Nat :=
  ((edges.filter fun e => e.source ∉ done).map Edge.target).count id

variable {edges : List Edge} {done queue known : List String} {degrees : Dict Nat}

/-- A visit takes the edges of a task out of the count. -/
theorem inflow_cons {current : String} (h : current ∉ done) (id : String) :
    inflow edges done id = inflow edges (current :: done) id +
      ((edges.filter fun e => e.source = current).map Edge.target).count id := by
  induction edges with
  | nil => rfl
  | cons e edges ih =>
    rw [inflow, inflow] at ih ⊢
    by_cases hcurrent : e.source = current
    · simp [hcurrent, h, List.count_cons] at ih ⊢
      omega
    · by_cases hdone : e.source ∈ done
      · simp [hcurrent, hdone] at ih ⊢
        exact ih
      · simp [hcurrent, hdone, List.count_cons] at ih ⊢
        omega

theorem inflow_eq_zero_iff {id : String} :
    inflow edges done id = 0 ↔ ∀ a, Feeds edges a id → a ∈ done := by
  rw [inflow, List.count_eq_zero]
  constructor
  · rintro h a ⟨e, he, rfl, rfl⟩
    by_contra hnot
    exact h (List.mem_map_of_mem (List.mem_filter.2 ⟨he, by simpa using hnot⟩))
  · intro h hmem
    obtain ⟨e, he, rfl⟩ := List.mem_map.1 hmem
    obtain ⟨he, hnot⟩ := List.mem_filter.1 he
    exact absurd (h e.source (feeds_of_mem he)) (by simpa using hnot)

/-- What holds between two visits, with some tasks done and others in the queue. -/
structure Counted (edges : List Edge) (known done queue : List String) (degrees : Dict Nat) : Prop where
  counters : ∀ id ∈ known, degrees.find? id = some (inflow edges done id)
  distinct : (done ++ queue).Nodup
  free : ∀ id, id ∈ done ++ queue ↔ id ∈ known ∧ inflow edges done id = 0
  /-- A task is done only after everything that leads to it. -/
  acyclic : ∀ id ∈ done, ¬TransGen (Feeds edges) id id

/-- Every edge leads from a known task to a known task. -/
def Within (edges : List Edge) (known : List String) : Prop :=
  ∀ e ∈ edges, e.source ∈ known ∧ e.target ∈ known

/-- A task whose sources are all done does not lie on a cycle. -/
theorem Counted.no_cycle (h : Counted edges known done queue degrees) {current : String}
    (hcurrent : inflow edges done current = 0) : ¬TransGen (Feeds edges) current current := by
  intro hcycle
  obtain ⟨a, hway, hlast⟩ := TransGen.tail'_iff.1 hcycle
  have ha : a ∈ done := inflow_eq_zero_iff.1 hcurrent a hlast
  exact h.acyclic a ha (TransGen.head' hlast hway)

/-- A visit can be made, and the tasks it frees are the ones that join the queue. -/
theorem Counted.visit (hwithin : Within edges known) {current : String}
    (h : Counted edges known done (current :: queue) degrees) :
    ∃ degrees' freed,
      takeEdges? ((edges.filter fun e => e.source = current).map Edge.target) degrees =
        some (degrees', freed) ∧
      Counted edges known (current :: done) (queue ++ freed) degrees' := by
  have hnew : current ∉ done := fun hdone =>
    (List.nodup_append'.1 h.distinct).2.2 hdone List.mem_cons_self
  have hinflow : ∀ id, inflow edges done id = inflow edges (current :: done) id +
      ((edges.filter fun e => e.source = current).map Edge.target).count id := inflow_cons hnew
  generalize htargets : (edges.filter fun e => e.source = current).map Edge.target = targets at hinflow ⊢
  have hknown : ∀ id ∈ targets, id ∈ known := by
    intro id hid
    rw [← htargets] at hid
    obtain ⟨e, he, rfl⟩ := List.mem_map.1 hid
    exact (hwithin e (List.mem_filter.1 he).1).2
  have henough : ∀ id ∈ targets, ∃ n, degrees.find? id = some n ∧ targets.count id ≤ n := by
    intro id hid
    exact ⟨_, h.counters id (hknown id hid), by rw [hinflow id]; exact Nat.le_add_left ..⟩
  obtain ⟨degrees', freed, htakes, hlower, hnodup, hfreed⟩ := exists_takeEdges? henough
  have hzero : inflow edges done current = 0 :=
    ((h.free current).1 (List.mem_append_right _ List.mem_cons_self)).2
  have hsame : ∀ id, id ∈ done ++ current :: queue ↔ id ∈ current :: done ++ queue := fun id =>
    List.perm_middle.mem_iff
  have hjoined : ∀ id, id ∈ freed ↔ id ∈ targets ∧ inflow edges (current :: done) id = 0 := by
    intro id
    rw [hfreed]
    refine and_congr_right fun hid => ?_
    rw [h.counters id (hknown id hid), Option.some.injEq, hinflow id]
    omega
  refine ⟨degrees', freed, htakes, fun id hid => ?_, ?_, fun id => ?_, ?_⟩
  · rw [hlower, h.counters id hid, Option.map_some, hinflow id, Nat.add_sub_cancel]
  · rw [← List.append_assoc, List.nodup_append']
    have hmoved : (done ++ current :: queue).Perm (current :: (done ++ queue)) := List.perm_middle
    refine ⟨hmoved.nodup_iff.1 h.distinct, hnodup, fun id hid hjoin => ?_⟩
    have hnone := ((h.free id).1 ((hsame id).2 hid)).2
    have hsome := List.count_pos_iff.2 ((hjoined id).1 hjoin).1
    rw [hinflow id] at hnone
    omega
  · rw [← List.append_assoc, List.mem_append, ← hsame id, h.free, hjoined, hinflow id]
    constructor
    · rintro (⟨hid, hnone⟩ | ⟨hid, hnone⟩)
      · exact ⟨hid, by omega⟩
      · exact ⟨hknown id hid, hnone⟩
    · rintro ⟨hid, hnone⟩
      by_cases hmem : id ∈ targets
      · exact .inr ⟨hmem, hnone⟩
      · exact .inl ⟨hid, by rw [hnone, List.count_eq_zero.2 hmem]⟩
  · intro id hid
    rcases List.mem_cons.1 hid with rfl | hid
    · exact h.no_cycle hzero
    · exact h.acyclic id hid

/-! ## All visits -/

/-- The visits go on until no task is free, and every one of them can be made. -/
theorem Counted.exists_countVisits? (hwithin : Within edges known) (fuel : Nat)
    (h : Counted edges known done queue degrees) (hfuel : known.length ≤ fuel + done.length) :
    ∃ n done' degrees', countVisits? edges fuel queue degrees = some n ∧
      done'.length = n + done.length ∧ Counted edges known done' [] degrees' := by
  induction fuel generalizing done queue degrees with
  | zero =>
    have hlength : (done ++ queue).length ≤ known.length :=
      (h.distinct.subperm fun id hid => ((h.free id).1 hid).1).length_le
    have hqueue : queue = [] := by
      rw [List.length_append] at hlength
      exact List.length_eq_zero_iff.1 (by omega)
    subst hqueue
    exact ⟨0, done, degrees, rfl, (Nat.zero_add _).symm, h⟩
  | succ fuel ih =>
    cases queue with
    | nil => exact ⟨0, done, degrees, rfl, (Nat.zero_add _).symm, h⟩
    | cons current queue =>
      obtain ⟨degrees₁, freed, htakes, h₁⟩ := h.visit hwithin
      obtain ⟨n, done', degrees', hvisits, hlength, hrest⟩ := ih h₁ (by rw [List.length_cons]; omega)
      refine ⟨n + 1, done', degrees', ?_, by rw [hlength, List.length_cons]; omega, hrest⟩
      rw [countVisits?, htakes]
      show (countVisits? edges fuel (queue ++ freed) degrees₁).bind _ = _
      rw [hvisits]
      rfl

/-- When no task is free any more, a task is left exactly if there is a cycle. -/
theorem Counted.length_lt_iff (hwithin : Within edges known) (hknown : known.Nodup)
    (h : Counted edges known done [] degrees) :
    done.length < known.length ↔ ∃ a, TransGen (Feeds edges) a a := by
  have hdone : ∀ id, id ∈ done ↔ id ∈ known ∧ inflow edges done id = 0 := by
    simpa using h.free
  have hdistinct : done.Nodup := by simpa using h.distinct
  have hsub : done.Subperm known := hdistinct.subperm fun id hid => ((hdone id).1 hid).1
  constructor
  · intro hless
    obtain ⟨left, hleft, hnot⟩ : ∃ id ∈ known, id ∉ done := by
      by_contra hall
      push Not at hall
      exact absurd (hknown.subperm hall).length_le (by omega)
    -- Of the edges into a task that is left, one begins at a task that is left.
    have hback : ∀ id ∈ known.filter fun id => id ∉ done,
        ∃ a ∈ known.filter fun id => id ∉ done, Feeds edges a id := by
      intro id hid
      obtain ⟨hid, hleft⟩ := List.mem_filter.1 hid
      have hinflow : ¬inflow edges done id = 0 := fun hzero =>
        absurd ((hdone id).2 ⟨hid, hzero⟩) (by simpa using hleft)
      rw [inflow_eq_zero_iff] at hinflow
      push Not at hinflow
      obtain ⟨a, hfeeds, ha⟩ := hinflow
      have hknown : a ∈ known := by
        obtain ⟨e, he, rfl, -⟩ := hfeeds
        exact (hwithin e he).1
      exact ⟨a, List.mem_filter.2 ⟨hknown, by simpa using ha⟩, hfeeds⟩
    have hleft : left ∈ known.filter fun id => id ∉ done := List.mem_filter.2 ⟨hleft, by simpa using hnot⟩
    obtain ⟨a, hcycle, -⟩ := Plan.exists_cycle hback hleft
    exact ⟨a, hcycle⟩
  · rintro ⟨a, hcycle⟩
    obtain ⟨b, hab, -⟩ := TransGen.head'_iff.1 hcycle
    obtain ⟨e, he, rfl, -⟩ := hab
    have hnot : e.source ∉ done := fun hmem => h.acyclic _ hmem hcycle
    refine lt_of_le_of_ne hsub.length_le fun heq => hnot ?_
    exact (hsub.perm_of_length_le heq.ge).mem_iff.2 (hwithin e he).1

/-! ## The counters at the start -/

variable {g : TaskGraph}

theorem find?_zeros (ids : List String) (d : Dict Nat) (id : String) :
    (d.insertAll (ids.map fun other => (other, 0))).find? id =
      if id ∈ ids then some 0 else d.find? id := by
  induction ids generalizing d with
  | nil => rfl
  | cons other ids ih =>
    rw [List.map_cons, Dict.insertAll_cons, ih]
    by_cases hmem : id ∈ ids
    · rw [if_pos hmem, if_pos (List.mem_cons_of_mem _ hmem)]
    · by_cases heq : other = id
      · rw [if_neg hmem, heq, Dict.find?_insert_self, if_pos List.mem_cons_self]
      · have hnot : id ∉ other :: ids := by simp [hmem, Ne.symm heq]
        rw [if_neg hmem, Dict.find?_insert_of_ne d heq, if_neg hnot]

theorem find?_foldl_count (edges : List Edge) (d : Dict Nat) (id : String) :
    (edges.foldl (fun d e => d.insert e.target ((d.find? e.target).getD 0 + 1)) d).find? id =
      if id ∈ edges.map Edge.target then
        some ((d.find? id).getD 0 + (edges.map Edge.target).count id)
      else d.find? id := by
  induction edges generalizing d with
  | nil => rfl
  | cons e edges ih =>
    rw [List.foldl_cons, List.map_cons, ih]
    by_cases heq : e.target = id
    · subst heq
      rw [if_pos List.mem_cons_self, Dict.find?_insert_self, List.count_cons_self]
      split
      · rw [Option.getD_some]
        congr 1
        omega
      · next hrest => rw [List.count_eq_zero.2 hrest]
    · rw [Dict.find?_insert_of_ne _ heq, List.count_cons_of_ne heq]
      simp only [List.mem_cons, Ne.symm heq, false_or]

/-- A counter for every task and every end of an edge, with the edges that lead there. -/
theorem find?_inDegrees (id : String) :
    g.inDegrees.find? id =
      if id ∈ g.nodes.map Node.id ∨ id ∈ g.edges.map Edge.target then
        some ((g.edges.map Edge.target).count id)
      else none := by
  have hzeros : (Dict.ofList (g.nodes.map fun n => (n.id, 0))).find? id =
      if id ∈ g.nodes.map Node.id then some 0 else none := by
    have hzeros := find?_zeros (g.nodes.map Node.id) Dict.empty id
    rwa [List.map_map] at hzeros
  rw [inDegrees, find?_foldl_count, hzeros]
  by_cases htarget : id ∈ g.edges.map Edge.target
  · rw [if_pos htarget, if_pos (Or.inr htarget)]
    by_cases hnode : id ∈ g.nodes.map Node.id
    · rw [if_pos hnode, Option.getD_some, Nat.zero_add]
    · rw [if_neg hnode, Option.getD_none, Nat.zero_add]
  · rw [if_neg htarget, List.count_eq_zero.2 htarget]
    simp only [htarget, or_false]

theorem mem_keys_inDegrees {id : String} :
    id ∈ g.inDegrees.keys ↔ id ∈ g.nodes.map Node.id ∨ id ∈ g.edges.map Edge.target := by
  rw [Dict.mem_keys_iff, find?_inDegrees]
  split
  · next h => exact iff_of_true rfl h
  · next h => exact iff_of_false (by simp) h

/-- Every edge begins and ends at a task that is there. -/
def Tied (g : TaskGraph) : Prop :=
  ∀ e ∈ g.edges, e.source ∈ g.nodes.map Node.id ∧ e.target ∈ g.nodes.map Node.id

variable {order : List String}

theorem counted_start (horder : order.Perm g.inDegrees.keys) :
    Counted g.edges g.inDegrees.keys [] (order.filter fun id => g.inDegrees.find? id = some 0)
      g.inDegrees := by
  have hinflow : ∀ id, inflow g.edges [] id = (g.edges.map Edge.target).count id := fun id => by
    simp [inflow]
  have hcounters : ∀ id ∈ g.inDegrees.keys, g.inDegrees.find? id = some (inflow g.edges [] id) := by
    intro id hid
    rw [find?_inDegrees, if_pos (mem_keys_inDegrees.1 hid), hinflow]
  refine ⟨hcounters, ?_, fun id => ?_, fun id hid => absurd hid List.not_mem_nil⟩
  · exact (horder.nodup_iff.2 g.inDegrees.nodup_keys).filter _
  · rw [List.nil_append, List.mem_filter, horder.mem_iff]
    refine and_congr_right fun hid => ?_
    rw [hcounters id hid, decide_eq_true_eq, Option.some.injEq]

/-- In whatever order the first tasks come, all visits can be made, and some task is left out
exactly if there is a cycle. -/
theorem Tied.exists_visited? (h : g.Tied) (horder : order.Perm g.inDegrees.keys) :
    ∃ n, g.visited? order = some n ∧
      (n < g.inDegrees.keys.length ↔ ∃ a, TransGen (Feeds g.edges) a a) := by
  have hwithin : Within g.edges g.inDegrees.keys := fun e he =>
    ⟨mem_keys_inDegrees.2 (.inl (h e he).1), mem_keys_inDegrees.2 (.inl (h e he).2)⟩
  obtain ⟨n, done, degrees, hvisits, hlength, hend⟩ :=
    (counted_start horder).exists_countVisits? hwithin g.inDegrees.keys.length (Nat.le_refl _)
  refine ⟨n, hvisits, ?_⟩
  rw [← hend.length_lt_iff hwithin g.inDegrees.nodup_keys, hlength]
  rfl

theorem Tied.hasCycle_iff (h : g.Tied) (horder : order.Perm g.inDegrees.keys) :
    g.hasCycle order = true ↔ ∃ a, TransGen (Feeds g.edges) a a := by
  obtain ⟨n, hvisited, hless⟩ := h.exists_visited? horder
  rw [hasCycle, hvisited, ← hless, Option.any_some, decide_eq_true_eq]

/-- No complaint but the one about a cycle is about a cycle. -/
theorem count_cycleDetected (g : TaskGraph) (order : List String) :
    (g.errorsIn order).count .cycleDetected = if g.hasCycle order then 1 else 0 := by
  have hnodes : ValidationError.cycleDetected ∉ g.nodes.flatMap Node.errors := by
    intro hmem
    obtain ⟨node, -, hmem⟩ := List.mem_flatMap.1 hmem
    rw [Node.errors, List.mem_append] at hmem
    rcases hmem with hmem | hmem
    · split at hmem <;> simp at hmem
    · simp at hmem
  have hdangling : ValidationError.cycleDetected ∉ g.danglingReferences := by
    simp [danglingReferences]
  rw [errorsIn, List.count_append, List.count_append, List.count_eq_zero.2 hnodes,
    List.count_eq_zero.2 hdangling]
  split <;> rfl

end TaskGraph
end JobPipeline
