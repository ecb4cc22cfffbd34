import JobPipeline.Proofs.Document.Body
import JobPipeline.Proofs.Field.Retargeting
import JobPipeline.Proofs.Source.Reconstruction

/-
A graph after a rename that tokens follow.

Every task is there in its place, with the new name wherever it had the old one: as its
own name, among the tasks that feed it, and in the tokens of every field.
-/
namespace JobPipeline

namespace Node

/-- A task before and after a rename. -/
structure Follows (old new : String) (n n' : Node) : Prop where
  name : n'.name = followName old new n.name
  kind : n'.kind = n.kind
  incoming : n'.incoming = n.incoming.map (followName old new)
  field : ∀ key, n'.field key = Field.renameReferences old new (n.field key)

theorem keys_retargeted (old new : String) (entries : List (String × String)) :
    ((entries.filterMap fun (key, raw) =>
      let text := Field.renameReferences old new raw
      if text = raw then none else some (key, text)).map Prod.fst).Sublist (entries.map Prod.fst) := by
  induction entries with
  | nil => exact List.Sublist.refl _
  | cons e entries ih =>
    rw [List.filterMap_cons, List.map_cons]
    by_cases hsame : Field.renameReferences old new e.2 = e.2
    · simp only [if_pos hsame]
      exact ih.cons _
    · simp only [if_neg hsame, List.map_cons]
      exact ih.cons_cons _

/-- Only the fields that change are set, but all of them are as if they were. -/
theorem field_retargetTokens (old new : String) (n : Node) (key : String) :
    (TaskGraph.retargetTokens old new n).field key = Field.renameReferences old new (n.field key) := by
  have hkeys := keys_retargeted old new n.fields.entries
  have hnodup : ((TaskGraph.retargeted old new n).map Prod.fst).Nodup := hkeys.nodup n.fields.nodup_keys
  show ((n.fields.insertAll (TaskGraph.retargeted old new n)).find? key).getD "" = _
  rw [field]
  cases hfound : n.fields.find? key with
  | none =>
    have hnot : key ∉ (TaskGraph.retargeted old new n).map Prod.fst := fun hmem => by
      obtain ⟨⟨_, raw⟩, hentry, rfl⟩ := List.mem_map.1 (hkeys.subset hmem)
      rw [(n.fields.mem_entries_iff _ raw).1 hentry] at hfound
      cases hfound
    rw [Dict.find?_insertAll_of_not_mem hnot, hfound]
    exact (Field.renameReferences_empty old new).symm
  | some raw =>
    have hentry := (n.fields.mem_entries_iff key raw).2 hfound
    by_cases hsame : Field.renameReferences old new raw = raw
    · have hnot : key ∉ (TaskGraph.retargeted old new n).map Prod.fst := fun hmem => by
        obtain ⟨⟨_, text⟩, hpair, rfl⟩ := List.mem_map.1 hmem
        obtain ⟨⟨k, other⟩, hother, hif⟩ := List.mem_filterMap.1 hpair
        by_cases hunchanged : Field.renameReferences old new other = other
        · simp [hunchanged] at hif
        · simp only [if_neg hunchanged, Option.some.injEq, Prod.mk.injEq] at hif
          obtain ⟨rfl, -⟩ := hif
          rw [(n.fields.mem_entries_iff _ other).1 hother] at hfound
          cases hfound
          exact hunchanged hsame
      rw [Dict.find?_insertAll_of_not_mem hnot, hfound]
      exact hsame.symm
    · have hpair : (key, Field.renameReferences old new raw) ∈ TaskGraph.retargeted old new n :=
        List.mem_filterMap.2 ⟨_, hentry, by simp [hsame]⟩
      rw [Dict.find?_insertAll_of_mem hnodup hpair]
      rfl

theorem field_eq (n : Node) (key : String) :
    n.field key = "" ∨ (key, n.field key) ∈ n.fields.entries := by
  rw [field]
  cases hfound : n.fields.find? key with
  | none => exact .inl rfl
  | some text => exact .inr ((n.fields.mem_entries_iff key text).2 hfound)

theorem renamed_kind (n : Node) (id old new : String) : (n.renamed id old new).kind = n.kind := by
  by_cases h : n.id = id
  · rw [renamed_of_eq old new h]
    rfl
  · rw [renamed_of_ne old new h]
    rfl

theorem renamed_field (n : Node) (id old new key : String) :
    (n.renamed id old new).field key = n.field key := by
  by_cases h : n.id = id
  · rw [renamed_of_eq old new h]
    rfl
  · rw [renamed_of_ne old new h]
    rfl

end Node

namespace TaskGraph

variable {g g' : TaskGraph} {old new : String}

theorem WellFormed.hasName_iff (h : g.WellFormed) {name : String} :
    g.hasName name = true ↔ name ∈ g.nodes.map Node.name := by
  constructor
  · intro hname
    obtain ⟨id, hid⟩ := Option.isSome_iff_exists.1 hname
    obtain ⟨n, hn, rfl, _⟩ := (h.indexed name id).1 hid
    exact List.mem_map_of_mem hn
  · intro hname
    obtain ⟨n, hn, rfl⟩ := List.mem_map.1 hname
    have hid : g.idOf? n.name = some n.id := (h.indexed n.name n.id).2 ⟨n, hn, rfl, rfl⟩
    exact Option.isSome_iff_exists.2 ⟨_, hid⟩

/-- A graph before and after a rename. -/
structure Follows (old new : String) (g g' : TaskGraph) : Prop where
  nodes : List.Forall₂ (Node.Follows old new) g.nodes g'.nodes
  edges : g'.writtenEdges.map Edge.named = g.writtenEdges.map fun e =>
    ⟨followName old new e.sourceName, followName old new e.targetName⟩

theorem Follows.names (h : Follows old new g g') :
    g'.nodes.map Node.name = (g.nodes.map Node.name).map (followName old new) := by
  rw [List.map_map]
  exact (map_eq_of_forall₂ h.nodes fun _ _ hn => hn.name.symm).symm

theorem Follows.written (h : Follows old new g g') :
    List.Forall₂ (Node.Follows old new) g.written g'.written :=
  List.rel_filter (fun _ _ hn => by simp only [hn.kind]) h.nodes

/-- The rename keeps all other names, and the old one is a name no longer. -/
theorem Follows.hasName (h : Follows old new g g') (hg : g.WellFormed) (hg' : g'.WellFormed)
    {name : String} (hname : name ≠ new) :
    g'.hasName name = (g.hasName name && !decide (name = old)) := by
  rw [Bool.eq_iff_iff, Bool.and_eq_true, Bool.not_eq_true', decide_eq_false_iff_not, hg'.hasName_iff,
    hg.hasName_iff, h.names, List.mem_map]
  constructor
  · rintro ⟨other, hother, rfl⟩
    by_cases hold : other = old
    · exact absurd (if_pos hold) hname
    · have hsame : followName old new other = other := if_neg hold
      rw [hsame]
      exact ⟨hother, hold⟩
  · rintro ⟨hmem, hold⟩
    exact ⟨name, hmem, if_neg hold⟩

/-! ## The rename -/

/-- A graph after a rename that tokens follow. -/
def followed (g : TaskGraph) (node : Node) (new : String) : TaskGraph :=
  { g.renamed node new with
    nodes := (g.renamed node new).nodes.map (retargetTokens node.name new) }

theorem node?_followed (g : TaskGraph) (node : Node) (new id : String) :
    (g.followed node new).node? id = (g.node? id).map fun n =>
      retargetTokens node.name new (n.renamed node.id node.name new) := by
  have hid : ∀ n : Node, (retargetTokens node.name new (n.renamed node.id node.name new)).id = n.id :=
    fun n => Node.renamed_id ..
  rw [node?, node?, followed, TaskGraph.renamed, List.map_map, List.find?_map]
  congr 1
  congr 1
  funext n
  exact decide_eq_decide.2 (by rw [Function.comp_apply, hid])

theorem isWritten_followed (g : TaskGraph) (node : Node) (new : String) (e : Edge) :
    (g.followed node new).isWritten (e.renamed node.id new) = g.isWritten e := by
  have hkind : ∀ n : Node,
      (retargetTokens node.name new (n.renamed node.id node.name new)).kind = n.kind :=
    fun n => Node.renamed_kind ..
  have hany : ∀ id, (((g.followed node new).node? id).any fun n => n.kind.isWritten) =
      (g.node? id).any fun n => n.kind.isWritten := by
    intro id
    rw [node?_followed]
    cases g.node? id with
    | none => rfl
    | some n => exact congrArg TaskKind.isWritten (hkind n)
  show ([e.source, e.target].all fun id =>
    ((g.followed node new).node? id).any fun n => n.kind.isWritten) = _
  simp only [hany]
  rfl

theorem WellFormed.follows_followed (h : g.WellFormed) {node : Node} (hnode : node ∈ g.nodes)
    (new : String) : Follows node.name new g (g.followed node new) := by
  constructor
  · show List.Forall₂ _ g.nodes ((g.nodes.map (Node.renamed · node.id node.name new)).map
      (retargetTokens node.name new))
    rw [List.map_map, List.forall₂_map_right_iff, List.forall₂_same]
    intro n hn
    refine ⟨?_, Node.renamed_kind .., ?_, fun key => ?_⟩
    · show (n.renamed node.id node.name new).name = _
      rw [Node.renamed_name, followName]
      by_cases hid : n.id = node.id
      · rw [if_pos hid, if_pos (congrArg Node.name (eq_of_id_eq h.nodeIds hn hnode hid))]
      · rw [if_neg hid, if_neg fun hname =>
          hid (congrArg Node.id (eq_of_name_eq h.names hn hnode hname))]
    · refine Node.renamed_incoming new fun hid hmem => ?_
      rw [h.incoming n hn] at hmem
      obtain ⟨e, he, htarget, hname⟩ := mem_sourceNames.1 hmem
      exact h.noLoop e he (((h.sourceName_eq_iff he hnode).1 hname).trans (htarget.trans hid).symm)
    · rw [Function.comp_apply, Node.field_retargetTokens, Node.renamed_field]
  · have hedges : (g.followed node new).writtenEdges =
        g.writtenEdges.map fun e => e.renamed node.id new := by
      show (g.edges.map fun e => e.renamed node.id new).filter _ = _
      rw [writtenEdges, List.filter_map]
      congr 1
      exact List.filter_congr fun e _ => isWritten_followed g node new e
    rw [hedges, List.map_map]
    refine List.map_congr_left fun e he => ?_
    have hmem : e ∈ g.edges := (List.mem_filter.1 he).1
    show (⟨(e.renamed node.id new).sourceName, (e.renamed node.id new).targetName⟩ : ParsedEdge) = _
    rw [h.renamed_sourceName hnode hmem, h.renamed_targetName hnode hmem]

/-- A rename that succeeds under a new name. -/
theorem WellFormed.rename_eq_followed (h : g.WellFormed) {node : Node} (hnode : node ∈ g.nodes)
    (hne : node.name ≠ new) (hok : (g.rename node.id new .retargetTokens).1 = .ok ()) :
    (g.rename node.id new .retargetTokens).2 = g.followed node new := by
  have hnotified : g.notify node.id (.setName new) =
      { g with nodes := g.nodes.map (Node.receives node.id (.setName new)) } :=
    notify_eq h.nodeIds ..
  rw [rename, node?_eq_some h.nodeIds hnode] at hok ⊢
  cases herror : g.nameError? new (some node.id) with
  | some error => simp [hne, herror] at hok
  | none =>
    simp only [if_neg hne, hnotified, List.map_map]
    rw [followed, TaskGraph.renamed]
    simp only [List.map_map]
    rfl

theorem WellFormed.follows_rename (h : g.WellFormed) {node : Node} (hnode : node ∈ g.nodes)
    (hne : node.name ≠ new) (hok : (g.rename node.id new .retargetTokens).1 = .ok ()) :
    Follows node.name new g (g.rename node.id new .retargetTokens).2 := by
  rw [h.rename_eq_followed hnode hne hok]
  exact h.follows_followed hnode new

end TaskGraph
end JobPipeline
