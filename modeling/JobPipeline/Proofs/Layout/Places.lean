import JobPipeline.Proofs.Graph.Stages
import JobPipeline.Proofs.Layout.Rows
import JobPipeline.Proofs.Number.Exact
import JobPipeline.Proofs.Source.Rebuilding

/-
Where the tasks of a pipeline are placed.

The columns of a row are given out from left to right, so a task stands as far to the right as its
row had tasks before it, and no place is given out twice.  Adding a task leaves it where it was
placed, and neither its fields nor an edge move it.
-/
namespace JobPipeline

open Relation (TransGen)

namespace Layout

/-! ## Columns -/

theorem count_le_of_mem_placesFrom {taken rows : List Nat} {place : Nat × Nat}
    (h : place ∈ placesFrom taken rows) : taken.count place.2 ≤ place.1 := by
  induction rows generalizing taken with
  | nil => cases h
  | cons row rows ih =>
    rcases List.mem_cons.1 h with rfl | h
    · exact Nat.le_refl _
    · exact Nat.le_trans List.count_le_count_cons (ih h)

theorem nodup_placesFrom (taken rows : List Nat) : (placesFrom taken rows).Nodup := by
  induction rows generalizing taken with
  | nil => exact List.nodup_nil
  | cons row rows ih =>
    refine List.nodup_cons.2 ⟨fun hmem => ?_, ih (row :: taken)⟩
    have hle := count_le_of_mem_placesFrom hmem
    rw [List.count_cons_self] at hle
    exact Nat.not_succ_le_self _ hle

/-! ## Spacing -/

/-- The coordinates of a place that is not too far out are exact. -/
theorem denotes_position {place : Nat × Nat} {bound : Nat} (hbound : bound * columnWidth < twoTo 53)
    (hcolumn : place.1 ≤ bound) (hrow : place.2 ≤ bound) :
    (position place).x.Denotes (place.1 * columnWidth) ∧ (position place).y.Denotes (place.2 * rowHeight) := by
  have hexact : ∀ {k spacing : Nat}, k ≤ bound → spacing ≤ columnWidth → k * spacing < twoTo 53 :=
    fun hk hspacing => Nat.lt_of_le_of_lt (Nat.mul_le_mul hk hspacing) hbound
  exact ⟨Binary64.denotes_ofNat (hexact hcolumn (Nat.le_refl _)),
    Binary64.denotes_ofNat (hexact hrow (by decide))⟩

/-- Coordinates that are exact tell the place. -/
theorem place_unique {position : Position} {a b : Nat × Nat}
    (ha : position.x.Denotes (a.1 * columnWidth) ∧ position.y.Denotes (a.2 * rowHeight))
    (hb : position.x.Denotes (b.1 * columnWidth) ∧ position.y.Denotes (b.2 * rowHeight)) : a = b :=
  Prod.ext (Nat.eq_of_mul_eq_mul_right (by decide) (ha.1.unique hb.1))
    (Nat.eq_of_mul_eq_mul_right (by decide) (ha.2.unique hb.2))

/-! ## The place of a task -/

/-- The number of names that come before a name and have its row. -/
def columnOf (row : String → Nat) (names : List String) (name : String) : Nat :=
  (names.takeWhile (· ≠ name)).countP (row · = row name)

theorem columnOf_append {before : List String} {name : String} (h : name ∉ before) (row : String → Nat)
    (after : List String) :
    columnOf row (before ++ name :: after) name = before.countP (row · = row name) := by
  have hbefore : ∀ other ∈ before, decide (other ≠ name) = true := fun other hother =>
    decide_eq_true fun heq => h (heq ▸ hother)
  rw [columnOf, List.takeWhile_append_of_pos hbefore, List.takeWhile_cons_of_neg (by simp),
    List.append_nil]

theorem columnOf_le_length (row : String → Nat) (names : List String) (name : String) :
    columnOf row names name ≤ names.length :=
  Nat.le_trans List.countP_le_length (List.takeWhile_sublist _).length_le

theorem placesFrom_map (row : String → Nat) {before names : List String} (h : (before ++ names).Nodup) :
    placesFrom (before.map row).reverse (names.map row) =
      names.map fun name => (columnOf row (before ++ names) name, row name) := by
  induction names generalizing before with
  | nil => rfl
  | cons name names ih =>
    have hnew : name ∉ before := fun hmem => (List.nodup_append'.1 h).2.2 hmem List.mem_cons_self
    have hcolumn : (before.map row).reverse.count (row name) =
        columnOf row (before ++ name :: names) name := by
      rw [columnOf_append hnew, List.count_reverse, List.count, List.countP_map]
      exact List.countP_congr fun other _ => by simp
    have hnodup : ((before ++ [name]) ++ names).Nodup := by rwa [List.append_assoc]
    have hrest := ih hnodup
    rw [List.append_assoc, List.map_append, List.reverse_append] at hrest
    exact congrArg₂ List.cons (congrArg (·, row name) hcolumn) hrest

/-- Column and row of the task of a name: the column is the number of tasks of the row that are
declared before it. -/
def placeOf (p : ParsedSource) (name : String) : Nat × Nat :=
  (columnOf (rowOf (rows p)) (p.tasks.map ParsedTask.name) name, rowOf (rows p) name)

theorem places_eq {p : ParsedSource} (h : (p.tasks.map ParsedTask.name).Nodup) :
    places p = (p.tasks.map ParsedTask.name).map (placeOf p) := by
  have hrows : taskRows p = (p.tasks.map ParsedTask.name).map (rowOf (rows p)) := by
    rw [List.map_map]
    rfl
  rw [places, hrows]
  exact @placesFrom_map (rowOf (rows p)) [] _ h

end Layout

namespace TaskGraph

/-! ## What moves a task -/

theorem positions_setFields (g : TaskGraph) (id : String) (values : List (String × String)) :
    (g.setFields id values).2.nodes.map Node.position = g.nodes.map Node.position := by
  rw [setFields, change]
  split
  · refine map_updateFirst_of_forall (fun n => ?_) g.nodes
    rfl
  · rfl

/-- Tasks that were all added stand where they were placed, behind those before. -/
theorem positions_of_addTasks {tasks : List (ParsedTask × (Nat × Nat))} {g g' : TaskGraph}
    (h : ParsedSource.addTasks tasks g = .ok g') :
    g'.nodes.map Node.position =
      g.nodes.map Node.position ++ tasks.map fun t => Layout.position t.2 := by
  induction tasks generalizing g with
  | nil =>
    cases h
    exact (List.append_nil _).symm
  | cons head rest ih =>
    obtain ⟨task, place⟩ := head
    rw [ParsedSource.addTasks] at h
    cases hadd : g.addNamed task.kind task.name (Layout.position place) none with
    | mk answer grown =>
      rw [hadd] at h
      cases answer with
      | error error => cases h
      | ok id =>
        obtain ⟨-, -, rfl⟩ := addNamed_ok hadd
        rw [ih h, positions_setFields, TaskGraph.grown, List.map_append, List.append_assoc]
        rfl

theorem joined_position (n s t : Node) : (n.joined s t).position = n.position := by
  have hreceives : ∀ (m : Node) id event, (m.send event).1.position = m.position →
      (m.receives id event).position = m.position := by
    intro m id event h
    rw [Node.receives]
    split
    · exact h
    · rfl
  have hout : ∀ m : Node, (m.send (.addOutgoing t.name)).1.position = m.position := by
    intro m
    simp only [Node.send]
    split <;> rfl
  have hin : ∀ m : Node, (m.send (.addIncoming s.name)).1.position = m.position := by
    intro m
    simp only [Node.send]
    split <;> rfl
  rw [Node.joined, hreceives _ _ _ (hin _), hreceives _ _ _ (hout _)]

theorem Sound.positions_of_addEdges {edges : List ParsedEdge} {g g' : TaskGraph} (h : g.Sound)
    (hadd : ParsedSource.addEdges edges g = .ok g') :
    g'.nodes.map Node.position = g.nodes.map Node.position := by
  refine (Sound.addEdges_induction (P := fun _ joined =>
    joined.nodes.map Node.position = g.nodes.map Node.position)
    (fun {_ joined s t} hsound hs ht hnodes => ?_) [] h rfl hadd).2
  rw [insertEdge_eq hsound.wellFormed.nodeIds hs ht, List.map_map, ← hnodes]
  exact List.map_congr_left fun n _ => joined_position n s t

end TaskGraph

/-! ## The layout of a parsed pipeline -/

section

variable {p : ParsedSource} (hd : p.Declared)
include hd

theorem Layout.nodup_placeOf {g : TaskGraph} (hnames : g.nodes.map Node.name = p.tasks.map ParsedTask.name) :
    (g.nodes.map fun n => Layout.placeOf p n.name).Nodup := by
  have hplaces : (g.nodes.map fun n => Layout.placeOf p n.name) = Layout.places p := by
    rw [Layout.places_eq hd.names, ← hnames, List.map_map]
    rfl
  rw [hplaces]
  exact Layout.nodup_placesFrom [] _

theorem ParsedSource.positions_of_graph {g : TaskGraph} (h : p.graph = .ok g)
    (hnames : g.nodes.map Node.name = p.tasks.map ParsedTask.name) :
    ∀ n ∈ g.nodes, n.position = Layout.position (Layout.placeOf p n.name) := by
  obtain ⟨-, tasks, hadded, hsound, -, -, hjoined⟩ := hd.exists_of_graph h
  have hsnd := List.map_snd_zip (Nat.le_of_eq (Layout.length_places p))
  have hpositions : g.nodes.map Node.position = (Layout.places p).map Layout.position := by
    rw [hsound.positions_of_addEdges hjoined, TaskGraph.positions_of_addTasks hadded, ← hsnd, List.map_map,
      hsnd]
    rfl
  rw [Layout.places_eq hd.names, ← hnames, List.map_map, List.map_map] at hpositions
  exact List.map_inj_left.1 hpositions

variable (hacyclic : ∀ a, ¬TransGen (Leads p.edges) a a)
include hacyclic

theorem Layout.isGreatest_placeOf (name : String) :
    IsGreatest {k | WayTo p.edges k name} (Layout.placeOf p name).2 := by
  have hgreatest := Layout.isGreatest_settle (fun e he => (hd.ends e he).1) hacyclic name
  rwa [List.length_map] at hgreatest

theorem Layout.placeOf_le (name : String) :
    (Layout.placeOf p name).1 ≤ p.tasks.length ∧ (Layout.placeOf p name).2 ≤ p.tasks.length := by
  have hcolumn := Layout.columnOf_le_length (rowOf (rows p)) (p.tasks.map ParsedTask.name) name
  have hrow := (Layout.isGreatest_placeOf hd hacyclic name).1.le_length
    (fun e he => (hd.ends e he).1) hacyclic
  rw [List.length_map] at hcolumn hrow
  exact ⟨hcolumn, hrow⟩

/-- The rounds come to rest at the same rows, whatever the order of the edges. -/
theorem Layout.settle_perm {edges : List ParsedEdge} (hperm : edges.Perm p.edges) :
    let rows := Layout.settle edges p.tasks.length Dict.empty
    edges.foldl Layout.lower rows = rows ∧
      ∀ name, Layout.rowOf rows name = (Layout.placeOf p name).2 := by
  have hends : ∀ e ∈ edges, e.source ∈ p.tasks.map ParsedTask.name := fun e he =>
    (hd.ends e (hperm.mem_iff.1 he)).1
  have hleads : ∀ a b, Leads edges a b → Leads p.edges a b := fun a b h => hperm.mem_iff.1 h
  have hsettled := Layout.settled_settle hends fun a hcycle => hacyclic a (TransGen.mono hleads a a hcycle)
  have hsame := fun name => Layout.rowOf_settle_perm (fun e he => (hd.ends e he).1) hacyclic hperm name
  rw [List.length_map] at hsettled hsame
  exact ⟨Layout.round_eq_self_iff.2 hsettled, hsame⟩

end

namespace TaskGraph

/-- Every node stands as deep as the longest way to it has edges, and as far to the right as its
row has nodes before it. -/
structure Layered (g : TaskGraph) (place : String → Nat × Nat) : Prop where
  positions : ∀ n ∈ g.nodes, n.position = Layout.position (place n.name)
  rows : ∀ n ∈ g.nodes, IsGreatest {k | WayTo (g.edges.map Edge.named) k n.name} (place n.name).2
  columns : ∀ before n after, g.nodes = before ++ n :: after →
    (place n.name).1 = before.countP fun m => (place m.name).2 = (place n.name).2

/-- The graph of a text is drawn in layers.  Edges lead downwards, no place is taken twice, and
the rows are where the rounds over the edges come to rest, whatever the order of the edges. -/
theorem layered_of_source {text : String} {g : TaskGraph} (h : ofSource text = .ok g) :
    ∃ p, Source.parse text = .ok p ∧ g.nodes.map Node.name = p.tasks.map ParsedTask.name ∧
      g.edges.map Edge.named = p.edges ∧ g.Layered (Layout.placeOf p) ∧
      (∀ e ∈ g.edges, (Layout.placeOf p e.sourceName).2 < (Layout.placeOf p e.targetName).2) ∧
      (g.nodes.map fun n => Layout.placeOf p n.name).Nodup ∧
      (g.nodes.length * 250 < twoTo 53 → (g.nodes.map Node.position).Nodup ∧
        ∀ n ∈ g.nodes, n.position.x.Denotes ((Layout.placeOf p n.name).1 * 250) ∧
          n.position.y.Denotes ((Layout.placeOf p n.name).2 * 150)) ∧
      ∀ edges, edges.Perm p.edges →
        let rows := Layout.settle edges p.tasks.length Dict.empty
        edges.foldl Layout.lower rows = rows ∧
          ∀ name, Layout.rowOf rows name = (Layout.placeOf p name).2 := by
  rw [ofSource] at h
  cases hparse : Source.parse text with
  | error error =>
    rw [hparse] at h
    cases h
  | ok p =>
    rw [hparse] at h
    have hgraph : p.graph = .ok g := h
    have hd := Source.declared_of_parse hparse
    obtain ⟨hiff, hbuilt⟩ := ParsedSource.graph_ok_iff hparse
    obtain ⟨-, hacyclic⟩ := hiff.1 ⟨g, hgraph⟩
    obtain ⟨hw, hrebuilds, hedges⟩ := hbuilt g hgraph
    have hnames : g.nodes.map Node.name = p.tasks.map ParsedTask.name :=
      (map_eq_of_forall₂ hrebuilds fun _ _ hr => hr.name.symm).symm
    have hpositions := ParsedSource.positions_of_graph hd hgraph hnames
    have hplaces := Layout.nodup_placeOf hd hnames
    have hrows := Layout.isGreatest_placeOf hd hacyclic
    refine ⟨p, rfl, hnames, hedges, ⟨hpositions, fun n _ => ?_, fun before n after hsplit => ?_⟩,
      fun e he => ?_, hplaces, fun hsmall => ?_, fun edges hperm => Layout.settle_perm hd hacyclic hperm⟩
    · rw [hedges]
      exact hrows n.name
    · have hnew : n.name ∉ before.map Node.name := by
        have hnodup := hw.names
        rw [hsplit, List.map_append, List.nodup_append'] at hnodup
        exact fun hmem => hnodup.2.2 hmem List.mem_cons_self
      rw [Layout.placeOf, ← hnames, hsplit, List.map_append, List.map_cons, Layout.columnOf_append hnew,
        List.countP_map]
      rfl
    · have hway := (hrows e.sourceName).1
      have hleads : Leads p.edges e.sourceName e.targetName := by
        rw [← hedges]
        exact List.mem_map_of_mem he
      exact (hrows e.targetName).2 (WayTo.step hway hleads)
    · have hexact : ∀ n ∈ g.nodes, n.position.x.Denotes ((Layout.placeOf p n.name).1 * 250) ∧
          n.position.y.Denotes ((Layout.placeOf p n.name).2 * 150) := by
        intro n hn
        have hlength : g.nodes.length = p.tasks.length := by
          rw [← List.length_map (f := Node.name), hnames, List.length_map]
        obtain ⟨hcolumn, hrow⟩ := Layout.placeOf_le hd hacyclic n.name
        rw [hpositions n hn]
        exact Layout.denotes_position (hlength ▸ hsmall) hcolumn hrow
      refine ⟨?_, hexact⟩
      refine List.Nodup.map_on (fun m hm n hn heq => ?_) hw.nodeIds.of_map
      have hm' := hexact m hm
      rw [heq] at hm'
      exact List.inj_on_of_nodup_map hplaces hm hn (Layout.place_unique hm' (hexact n hn))

/-- The lower edge comes first, so one round does not settle the rows. -/
def forkSource : String :=
  "load [type=any]\nleft [type=any]\nright [type=any]\nleft -> right\n" ++
    "load -> left; load -> right\nlast [type=any]"

theorem layered_of_source_fork :
    ∃ g p, ofSource forkSource = .ok g ∧ Source.parse forkSource = .ok p ∧
      g.Layered (Layout.placeOf p) ∧
      (g.nodes.map fun n => Layout.placeOf p n.name) = [(0, 0), (0, 1), (0, 2), (1, 0)] ∧
      (g.nodes.map Node.position).Nodup := by
  have hplaces : ((Source.parse forkSource).toOption.map fun p =>
      p.tasks.map fun t => Layout.placeOf p t.name) = some [(0, 0), (0, 1), (0, 2), (1, 0)] := by
    decide +kernel
  have hsome : (ofSource forkSource).toOption.isSome = true := by decide +kernel
  cases hg : ofSource forkSource with
  | error error =>
    rw [hg] at hsome
    cases hsome
  | ok g =>
    obtain ⟨p, hparse, hnames, -, hlayered, -, -, hexact, -⟩ := layered_of_source hg
    rw [hparse] at hplaces
    have hnodes : (g.nodes.map fun n => Layout.placeOf p n.name) = [(0, 0), (0, 1), (0, 2), (1, 0)] := by
      have hmapped := congrArg (List.map (Layout.placeOf p)) hnames
      rw [List.map_map, List.map_map] at hmapped
      exact hmapped.trans (Option.some.inj hplaces)
    have hlength : g.nodes.length = 4 := by
      rw [← List.length_map, hnodes]
      rfl
    exact ⟨g, p, rfl, hparse, hlayered, hnodes, (hexact (by rw [hlength]; decide)).1⟩

end TaskGraph
end JobPipeline
