import JobPipeline.Graph.Basic
import Mathlib.Logic.Relation

/-
The search for a way along the edges.

`TaskGraph.reaches` works off a queue with a bound on its steps.  Here it is
shown to decide the relation it stands for: there is a way from one task to
another exactly when the search finds it.  The bound is what takes an argument;
`searchCost` is what is left to do, and every step lowers it.

The second half is about the only thing that edits ask of the search.  An edge
from `s` to `t` closes no cycle when there is no way from `t` back to `s`.
-/
namespace JobPipeline

open Relation (ReflTransGen TransGen)

/-- An edge leads from one task to another. -/
def Feeds (edges : List Edge) (a b : String) : Prop := ∃ e ∈ edges, e.source = a ∧ e.target = b

/-- No way along the edges comes back to where it began. -/
def Acyclic (edges : List Edge) : Prop := ∀ a, ¬TransGen (Feeds edges) a a

theorem feeds_of_mem {edges : List Edge} {e : Edge} (h : e ∈ edges) :
    Feeds edges e.source e.target := ⟨e, h, rfl, rfl⟩

theorem Feeds.mono {edges more : List Edge} (h : ∀ e ∈ edges, e ∈ more) {a b : String}
    (hab : Feeds edges a b) : Feeds more a b := by
  obtain ⟨e, he, hs, ht⟩ := hab
  exact ⟨e, h e he, hs, ht⟩

theorem Acyclic.of_subset {edges fewer : List Edge} (h : ∀ e ∈ fewer, e ∈ edges)
    (hacyclic : Acyclic edges) : Acyclic fewer := fun a ha =>
  hacyclic a (TransGen.mono (fun _ _ (hab : Feeds fewer _ _) => hab.mono h) a a ha)

theorem feeds_append_singleton {edges : List Edge} {e : Edge} {a b : String} :
    Feeds (edges ++ [e]) a b ↔ Feeds edges a b ∨ (e.source = a ∧ e.target = b) := by
  constructor
  · rintro ⟨e', he', hs, ht⟩
    rcases List.mem_append.1 he' with he' | he'
    · exact .inl ⟨e', he', hs, ht⟩
    · rw [List.mem_singleton] at he'
      subst he'
      exact .inr ⟨hs, ht⟩
  · rintro (⟨e', he', hs, ht⟩ | h)
    · exact ⟨e', List.mem_append_left _ he', hs, ht⟩
    · exact ⟨e, List.mem_append_right _ (List.mem_singleton.2 rfl), h⟩

/-! ## The search decides whether there is a way -/

namespace TaskGraph

/-- What the search finds, it found along edges from the queue. -/
theorem exists_way_of_searchFrom {edges : List Edge} {goal : String} {fuel : Nat}
    {seen queue : List String} (h : searchFrom edges goal fuel seen queue = true) :
    ∃ start ∈ queue, ReflTransGen (Feeds edges) start goal := by
  induction fuel generalizing seen queue with
  | zero => simp [searchFrom] at h
  | succ fuel ih =>
    cases queue with
    | nil => simp [searchFrom] at h
    | cons current queue =>
      rw [searchFrom] at h
      by_cases hgoal : current = goal
      · exact ⟨current, List.mem_cons_self, hgoal ▸ .refl⟩
      · rw [if_neg hgoal] at h
        by_cases hseen : current ∈ seen
        · rw [if_pos hseen] at h
          obtain ⟨start, hstart, hway⟩ := ih h
          exact ⟨start, List.mem_cons_of_mem _ hstart, hway⟩
        · rw [if_neg hseen] at h
          obtain ⟨start, hstart, hway⟩ := ih h
          rcases List.mem_append.1 hstart with hstart | hstart
          · exact ⟨start, List.mem_cons_of_mem _ hstart, hway⟩
          · obtain ⟨e, he, rfl⟩ := List.mem_map.1 hstart
            obtain ⟨he, hsource⟩ := List.mem_filter.1 he
            have hfeeds : Feeds edges current e.target := ⟨e, he, by simpa using hsource, rfl⟩
            exact ⟨current, List.mem_cons_self, .head hfeeds hway⟩

/-- The steps that a search may still need: one for each task in the queue, and
one for each edge that was not followed. -/
def searchCost (edges : List Edge) (seen queue : List String) : Nat :=
  queue.length + (edges.filter fun e => e.source ∉ seen).length

/-- Following the edges of a task moves them from the second part of the cost to
the first. -/
theorem searchCost_follow (edges : List Edge) {seen queue : List String} {current : String}
    (h : current ∉ seen) :
    searchCost edges (current :: seen)
        (queue ++ (edges.filter fun e => e.source = current).map Edge.target) =
      searchCost edges seen queue := by
  have hsplit : (edges.filter fun e => e.source ∉ seen).length =
      (edges.filter fun e => e.source = current).length +
        (edges.filter fun e => e.source ∉ current :: seen).length := by
    induction edges with
    | nil => rfl
    | cons e edges ih =>
      by_cases hcurrent : e.source = current
      · simp [hcurrent, h] at ih ⊢
        omega
      · by_cases hseen : e.source ∈ seen
        · simp [hcurrent, hseen] at ih ⊢
          exact ih
        · simp [hcurrent, hseen] at ih ⊢
          omega
  rw [searchCost, searchCost, List.length_append, List.length_map, hsplit]
  omega

/-- At the start there is the one task, and no edge was followed. -/
theorem searchCost_start (edges : List Edge) (start : String) :
    searchCost edges [] [start] ≤ edges.length + 1 := by
  have := List.length_filter_le (fun e : Edge => e.source ∉ ([] : List String)) edges
  rw [searchCost, List.length_singleton]
  omega

/-- A set of tasks that no edge leads out of, with the starts in it and the goal
outside. -/
structure Encloses (edges : List Edge) (goal : String) (starts closed : List String) : Prop where
  starts : ∀ a ∈ starts, a ∈ closed
  goal : goal ∉ closed
  step : ∀ a ∈ closed, ∀ b, Feeds edges a b → b ∈ closed

/-- There is no way out of an enclosed set. -/
theorem Encloses.no_way {edges : List Edge} {goal : String} {starts closed : List String}
    (h : Encloses edges goal starts closed) {start : String} (hstart : start ∈ starts) :
    ¬ReflTransGen (Feeds edges) start goal := by
  intro hway
  have hmem : ∀ b, ReflTransGen (Feeds edges) start b → b ∈ closed := by
    intro b hb
    induction hb with
    | refl => exact h.starts start hstart
    | tail _ hab ih => exact h.step _ ih _ hab
  exact h.goal (hmem goal hway)

/-- A search that fails leaves an enclosed set. -/
theorem exists_encloses_of_searchFrom {edges : List Edge} {goal : String} {fuel : Nat}
    {seen queue : List String} (h : searchFrom edges goal fuel seen queue = false)
    (hcost : searchCost edges seen queue ≤ fuel) (hgoal : goal ∉ seen)
    (hclosed : ∀ a ∈ seen, ∀ b, Feeds edges a b → b ∈ seen ++ queue) :
    ∃ closed, Encloses edges goal (seen ++ queue) closed := by
  induction fuel generalizing seen queue with
  | zero =>
    have hqueue : queue = [] := List.length_eq_zero_iff.1 (by rw [searchCost] at hcost; omega)
    subst hqueue
    rw [List.append_nil] at hclosed ⊢
    exact ⟨seen, fun a ha => ha, hgoal, hclosed⟩
  | succ fuel ih =>
    cases queue with
    | nil =>
      rw [List.append_nil] at hclosed ⊢
      exact ⟨seen, fun a ha => ha, hgoal, hclosed⟩
    | cons current queue =>
      rw [searchFrom] at h
      by_cases hcurrent : current = goal
      · rw [if_pos hcurrent] at h
        cases h
      · rw [if_neg hcurrent] at h
        by_cases hseen : current ∈ seen
        · -- The task is left out of the queue; it counts as seen already.
          have hsame : ∀ b, b ∈ seen ++ current :: queue → b ∈ seen ++ queue := by
            intro b hb
            rw [List.mem_append, List.mem_cons] at hb
            rw [List.mem_append]
            rcases hb with hb | rfl | hb
            · exact .inl hb
            · exact .inl hseen
            · exact .inr hb
          rw [if_pos hseen] at h
          have hless : searchCost edges seen queue ≤ fuel := by
            rw [searchCost, List.length_cons] at hcost
            rw [searchCost]
            omega
          obtain ⟨closed, hstarts, hmiss, hstep⟩ :=
            ih h hless hgoal fun a ha b hab => hsame b (hclosed a ha b hab)
          exact ⟨closed, fun a ha => hstarts a (hsame a ha), hmiss, hstep⟩
        · -- Its edges are followed, and what they lead to joins the queue.
          rw [if_neg hseen] at h
          have hless : searchCost edges (current :: seen)
              (queue ++ (edges.filter fun e => e.source = current).map Edge.target) ≤ fuel := by
            rw [searchCost_follow edges hseen]
            rw [searchCost, List.length_cons] at hcost
            rw [searchCost]
            omega
          have hgoal' : goal ∉ current :: seen := by
            rw [List.mem_cons, not_or]
            exact ⟨fun e => hcurrent e.symm, hgoal⟩
          have hsub : ∀ b, b ∈ seen ++ current :: queue → b ∈ current :: seen ++
              (queue ++ (edges.filter fun e => e.source = current).map Edge.target) := by
            intro b hb
            simp only [List.mem_append, List.mem_cons] at hb ⊢
            rcases hb with hb | hb | hb
            · exact .inl (.inr hb)
            · exact .inl (.inl hb)
            · exact .inr (.inl hb)
          obtain ⟨closed, hstarts, hmiss, hstep⟩ := ih h hless hgoal' (by
            intro a ha b hab
            rcases List.mem_cons.1 ha with rfl | ha
            · obtain ⟨e, he, hs, ht⟩ := hab
              refine List.mem_append_right _ (List.mem_append_right _ ?_)
              exact List.mem_map.2 ⟨e, List.mem_filter.2 ⟨he, by simpa using hs⟩, ht⟩
            · exact hsub b (hclosed a ha b hab))
          exact ⟨closed, fun a ha => hstarts a (hsub a ha), hmiss, hstep⟩

/-- The search finds a way exactly when there is one. -/
theorem reaches_iff (g : TaskGraph) (start goal : String) :
    g.reaches start goal = true ↔ ReflTransGen (Feeds g.edges) start goal := by
  constructor
  · intro h
    obtain ⟨start', hstart, hway⟩ := exists_way_of_searchFrom h
    rw [List.mem_singleton] at hstart
    exact hstart ▸ hway
  · intro hway
    rw [← Bool.not_eq_false]
    intro h
    obtain ⟨closed, hclosed⟩ := exists_encloses_of_searchFrom h (searchCost_start g.edges start)
      List.not_mem_nil (by simp)
    exact hclosed.no_way List.mem_cons_self hway

end TaskGraph

/-! ## A new edge and cycles -/

/-- A way that may use one more edge either does without it, or goes to its
source and on from its target. -/
theorem way_append_singleton {edges : List Edge} {e : Edge} {a b : String}
    (h : ReflTransGen (Feeds (edges ++ [e])) a b) :
    ReflTransGen (Feeds edges) a b ∨
      (ReflTransGen (Feeds edges) a e.source ∧ ReflTransGen (Feeds edges) e.target b) := by
  induction h with
  | refl => exact .inl .refl
  | tail _ hstep ih =>
    rcases feeds_append_singleton.1 hstep with hstep | ⟨rfl, rfl⟩
    · rcases ih with h | ⟨hs, ht⟩
      · exact .inl (h.tail hstep)
      · exact .inr ⟨hs, ht.tail hstep⟩
    · rcases ih with h | ⟨hs, _⟩
      · exact .inr ⟨h, .refl⟩
      · exact .inr ⟨hs, .refl⟩

/-- An edge closes no cycle when there is no way from its target back to its
source. -/
theorem Acyclic.append_singleton {edges : List Edge} {e : Edge} (h : Acyclic edges)
    (hback : ¬ReflTransGen (Feeds edges) e.target e.source) : Acyclic (edges ++ [e]) := by
  intro a ha
  obtain ⟨b, hab, hba⟩ := TransGen.head'_iff.1 ha
  rcases feeds_append_singleton.1 hab with hab | ⟨rfl, rfl⟩
  · rcases way_append_singleton hba with hba | ⟨hbs, hta⟩
    · exact h a (TransGen.head' hab hba)
    · exact hback (hta.trans (.head hab hbs))
  · rcases way_append_singleton hba with hba | ⟨_, hta⟩
    · exact hback hba
    · exact hback hta

/-- Without such a way the new edge closes no cycle, and with one it does. -/
theorem acyclic_append_singleton_iff {edges : List Edge} {e : Edge} (h : Acyclic edges) :
    Acyclic (edges ++ [e]) ↔ ¬ReflTransGen (Feeds edges) e.target e.source := by
  refine ⟨fun hacyclic hback => hacyclic e.source ?_, h.append_singleton⟩
  have hnew : Feeds (edges ++ [e]) e.source e.target :=
    feeds_append_singleton.2 (.inr ⟨rfl, rfl⟩)
  exact TransGen.head' hnew (ReflTransGen.mono (fun _ _ hab => feeds_append_singleton.2 (.inl hab)) _ _ hback)

/-- Ways are by ids, so new names on the edges change none. -/
theorem feeds_map {edges : List Edge} {f : Edge → Edge}
    (hf : ∀ e, (f e).source = e.source ∧ (f e).target = e.target) :
    Feeds (edges.map f) = Feeds edges := by
  funext a b
  refine propext ⟨?_, ?_⟩
  · rintro ⟨e', he', hs, ht⟩
    obtain ⟨e, he, rfl⟩ := List.mem_map.1 he'
    exact ⟨e, he, (hf e).1 ▸ hs, (hf e).2 ▸ ht⟩
  · rintro ⟨e, he, hs, ht⟩
    exact ⟨f e, List.mem_map_of_mem he, (hf e).1.trans hs, (hf e).2.trans ht⟩

end JobPipeline
