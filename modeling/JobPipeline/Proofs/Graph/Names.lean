import JobPipeline.Proofs.Graph.WellFormed

/-
Names on a list of edges.

A task lists its neighbours by name, in the order of the edges.  An edit changes
the list of edges by adding one, dropping some or renaming an end, and these are
the matching changes of the names on it.
-/
namespace JobPipeline

theorem mem_sourceNames {edges : List Edge} {id name : String} :
    name ∈ sourceNames edges id ↔ ∃ e ∈ edges, e.target = id ∧ e.sourceName = name := by
  rw [sourceNames, List.mem_map]
  constructor
  · rintro ⟨e, he, hname⟩
    obtain ⟨he, htarget⟩ := List.mem_filter.1 he
    exact ⟨e, he, by simpa using htarget, hname⟩
  · rintro ⟨e, he, htarget, hname⟩
    exact ⟨e, List.mem_filter.2 ⟨he, by simpa using htarget⟩, hname⟩

theorem mem_targetNames {edges : List Edge} {id name : String} :
    name ∈ targetNames edges id ↔ ∃ e ∈ edges, e.source = id ∧ e.targetName = name := by
  rw [targetNames, List.mem_map]
  constructor
  · rintro ⟨e, he, hname⟩
    obtain ⟨he, hsource⟩ := List.mem_filter.1 he
    exact ⟨e, he, by simpa using hsource, hname⟩
  · rintro ⟨e, he, hsource, hname⟩
    exact ⟨e, List.mem_filter.2 ⟨he, by simpa using hsource⟩, hname⟩

theorem sourceNames_append_singleton (edges : List Edge) (e : Edge) (id : String) :
    sourceNames (edges ++ [e]) id =
      if e.target = id then sourceNames edges id ++ [e.sourceName] else sourceNames edges id := by
  rw [sourceNames, List.filter_append, List.map_append]
  by_cases h : e.target = id
  · rw [if_pos h, List.filter_cons_of_pos (by simpa using h)]
    rfl
  · rw [if_neg h, List.filter_cons_of_neg (by simpa using h)]
    exact List.append_nil _

theorem targetNames_append_singleton (edges : List Edge) (e : Edge) (id : String) :
    targetNames (edges ++ [e]) id =
      if e.source = id then targetNames edges id ++ [e.targetName] else targetNames edges id := by
  rw [targetNames, List.filter_append, List.map_append]
  by_cases h : e.source = id
  · rw [if_pos h, List.filter_cons_of_pos (by simpa using h)]
    rfl
  · rw [if_neg h, List.filter_cons_of_neg (by simpa using h)]
    exact List.append_nil _

/-- Edges into a task can be dropped by name when the names tell them apart. -/
theorem sourceNames_filter {edges : List Edge} {keep : Edge → Bool} (keepName : String → Bool)
    {id : String} (h : ∀ e ∈ edges, e.target = id → keep e = keepName e.sourceName) :
    sourceNames (edges.filter keep) id = (sourceNames edges id).filter keepName := by
  rw [sourceNames, sourceNames, List.filter_map, List.filter_filter, List.filter_filter]
  refine congrArg _ (List.filter_congr fun e he => ?_)
  by_cases ht : e.target = id
  · simp [ht, h e he ht]
  · simp [ht]

theorem targetNames_filter {edges : List Edge} {keep : Edge → Bool} (keepName : String → Bool)
    {id : String} (h : ∀ e ∈ edges, e.source = id → keep e = keepName e.targetName) :
    targetNames (edges.filter keep) id = (targetNames edges id).filter keepName := by
  rw [targetNames, targetNames, List.filter_map, List.filter_filter, List.filter_filter]
  refine congrArg _ (List.filter_congr fun e he => ?_)
  by_cases hs : e.source = id
  · simp [hs, h e he hs]
  · simp [hs]

/-- Dropping edges that lead elsewhere changes nothing. -/
theorem sourceNames_filter_of_kept {edges : List Edge} {keep : Edge → Bool} {id : String}
    (h : ∀ e ∈ edges, e.target = id → keep e = true) :
    sourceNames (edges.filter keep) id = sourceNames edges id := by
  rw [sourceNames_filter (fun _ => true) h]
  exact List.filter_eq_self.2 fun _ _ => rfl

theorem targetNames_filter_of_kept {edges : List Edge} {keep : Edge → Bool} {id : String}
    (h : ∀ e ∈ edges, e.source = id → keep e = true) :
    targetNames (edges.filter keep) id = targetNames edges id := by
  rw [targetNames_filter (fun _ => true) h]
  exact List.filter_eq_self.2 fun _ _ => rfl

/-- Edges under new names have the same ends, so the names are renamed in place. -/
theorem sourceNames_map {edges : List Edge} {f : Edge → Edge} {follow : String → String}
    {id : String} (htarget : ∀ e, (f e).target = e.target)
    (h : ∀ e ∈ edges, e.target = id → (f e).sourceName = follow e.sourceName) :
    sourceNames (edges.map f) id = (sourceNames edges id).map follow := by
  rw [sourceNames, sourceNames, List.filter_map, List.map_map, List.map_map]
  have hsame : ((fun e : Edge => decide (e.target = id)) ∘ f) = fun e => decide (e.target = id) :=
    funext fun e => by simp [htarget]
  rw [hsame]
  refine List.map_congr_left fun e he => ?_
  obtain ⟨he, ht⟩ := List.mem_filter.1 he
  exact h e he (by simpa using ht)

theorem targetNames_map {edges : List Edge} {f : Edge → Edge} {follow : String → String}
    {id : String} (hsource : ∀ e, (f e).source = e.source)
    (h : ∀ e ∈ edges, e.source = id → (f e).targetName = follow e.targetName) :
    targetNames (edges.map f) id = (targetNames edges id).map follow := by
  rw [targetNames, targetNames, List.filter_map, List.map_map, List.map_map]
  have hsame : ((fun e : Edge => decide (e.source = id)) ∘ f) = fun e => decide (e.source = id) :=
    funext fun e => by simp [hsource]
  rw [hsame]
  refine List.map_congr_left fun e he => ?_
  obtain ⟨he, hs⟩ := List.mem_filter.1 he
  exact h e he (by simpa using hs)

namespace TaskGraph

/-! ## Names at the ends of edges -/

section Ends

variable {g : TaskGraph} {e : Edge} {n : Node}

/-- In a well-formed graph the name on an edge tells which task it comes from. -/
theorem WellFormed.sourceName_eq_iff (h : g.WellFormed) (he : e ∈ g.edges) (hn : n ∈ g.nodes) :
    e.sourceName = n.name ↔ e.source = n.id := by
  obtain ⟨m, hm, hid, hname⟩ := h.sources e he
  constructor
  · intro heq
    rw [← hid, eq_of_name_eq h.names hm hn (hname.trans heq)]
  · intro heq
    rw [← hname, eq_of_id_eq h.nodeIds hm hn (hid.trans heq)]

theorem WellFormed.targetName_eq_iff (h : g.WellFormed) (he : e ∈ g.edges) (hn : n ∈ g.nodes) :
    e.targetName = n.name ↔ e.target = n.id := by
  obtain ⟨m, hm, hid, hname⟩ := h.targets e he
  constructor
  · intro heq
    rw [← hid, eq_of_name_eq h.names hm hn (hname.trans heq)]
  · intro heq
    rw [← hname, eq_of_id_eq h.nodeIds hm hn (hid.trans heq)]

/-- Two edges between the same tasks are one edge. -/
theorem WellFormed.eq_of_ends (h : g.WellFormed) {e' : Edge} (he : e ∈ g.edges)
    (he' : e' ∈ g.edges) (hs : e.source = e'.source) (ht : e.target = e'.target) : e = e' :=
  List.inj_on_of_nodup_map h.noRepeat he he' (by rw [hs, ht])

end Ends
end TaskGraph

end JobPipeline
