import JobPipeline.Proofs.Document.RoundTrip
import JobPipeline.Proofs.Source.Leading

/-
What a value can do to the tasks of a text.

A list whose angle brackets do not balance ends somewhere else than it was meant to, and
what follows is read as anything: the text of a value can declare tasks.  It can do so
only behind itself.
-/
namespace JobPipeline

open Document (chars)
open Source (Gap gap_nil gap_cons Avoids Statement Item declarations Declares)
open Source.Reader (Steps listedStatement)

namespace Node

variable {n : Node} {g : TaskGraph}

theorem avoids_listed (n : Node) (g : TaskGraph) (rest : List Char) :
    Avoids [',', ';'] (listed n.indent (n.attributes g) ++ rest) := by
  cases hattributes : n.attributes g with
  | nil => exact Source.avoids_of_class (p := (· == ']')) (by decide) (by decide) gap_nil rfl rest
  | cons first more =>
    have hfirst : first ∈ n.attributes g := hattributes ▸ List.mem_cons_self
    obtain ⟨layout, hlayout, hsome⟩ := List.mem_filterMap.1 hfirst
    rw [FieldLayout.attribute?] at hsome
    split at hsome
    · cases hsome
    · cases hsome
      have hword := (TaskKind.regular_of_mem hlayout).isWord
      rw [listed]
      have hassoc : '\n' :: (n.indent ++ (layout.key.toList ++ '=' :: layout.written n g ++
            listed n.indent more)) ++ rest =
          ('\n' :: n.indent) ++ (layout.key.toList ++ ('=' :: layout.written n g ++
            listed n.indent more ++ rest)) := by simp
      rw [hassoc]
      exact Source.avoids_word hword (by decide) n.gap_indent _

/-- The first attribute of a task is its type, whatever follows its text. -/
theorem gives_type (n : Node) (g : TaskGraph) (rest : List Char) :
    ∃ next, Source.Reader.listedPair.Gives ("type=\"".toList ++ (n.kind.name.toList ++ '"' ::
      (listed n.indent (n.attributes g) ++ rest))) (some (("type", n.kind.name), next)) := by
  have hkind := n.kind.escapeQuoted_name
  have hword : Identifier.isWord "type".toList = true := by decide
  have hne : listed n.indent (n.attributes g) ≠ [] := by
    cases n.attributes g <;> exact List.cons_ne_nil _ _
  obtain ⟨next, -, -, hgives⟩ := Source.Reader.gives_listedPair hword gap_nil gap_nil gap_nil
    (.quoted n.kind.name.toList) gap_nil (.inl rfl)
    (fun _ => (apart_listed n.indent (n.attributes g)).append hne rest) (n.avoids_listed g rest) rfl
  rw [String.ofList_toList, String.ofList_toList, hkind] at hgives
  refine ⟨next, ?_⟩
  simpa using hgives

/-- A block in front of any text. -/
theorem chars_block_append (n : Node) (g : TaskGraph) (rest : List Char) :
    chars (n.block g) ++ rest = n.name.toList ++ ([' '] ++ '[' :: ("type=\"".toList ++
      (n.kind.name.toList ++ '"' :: (listed n.indent (n.attributes g) ++ rest)))) := by
  rw [chars_block]
  simp

theorem skipGaps_block (hname : Identifier.isWord n.name.toList = true) (g : TaskGraph)
    (rest : List Char) :
    Source.skipGaps (chars (n.block g) ++ rest) = chars (n.block g) ++ rest := by
  rw [chars_block_append, Source.skipGaps_word hname]

theorem gives_graph_none_block (hname : Identifier.isWord n.name.toList = true) (g : TaskGraph)
    (rest : List Char) : Source.Reader.graph.Gives (chars (n.block g) ++ rest) none := by
  have hblank : Gap [' '] := gap_cons (by decide) gap_nil
  rw [chars_block_append]
  exact Source.Reader.gives_graph_none hname hblank (.inl rfl)

theorem avoids_block (hname : Identifier.isWord n.name.toList = true) (g : TaskGraph)
    (rest : List Char) : Avoids [';'] (chars (n.block g) ++ rest) := by
  rw [chars_block_append]
  exact Source.avoids_word hname (by decide) gap_nil _

/-- Blocks of tasks that can be read are read one by one, whatever stands behind them. -/
theorem steps_blocks {nodes : List Node} (hnodes : ∀ m ∈ nodes, m.Legible) {rest : List Char}
    (hrest : Avoids [';'] rest) {cs : List Char}
    (hcs : Source.skipGaps cs =
      Source.skipGaps ((nodes.flatMap fun m => chars (m.block g) ++ ['\n']) ++ rest)) :
    ∃ front mid, Steps listedStatement cs front mid ∧ Source.skipGaps mid = Source.skipGaps rest ∧
      front.length + mid.length ≤ cs.length ∧
      front.map Statement.item = nodes.map fun m => .task m.name (m.declared g) := by
  induction nodes generalizing cs with
  | nil => exact ⟨[], cs, .none cs, hcs, by simp, rfl⟩
  | cons m nodes ih =>
    obtain ⟨hm, hnodes⟩ := List.forall_mem_cons.1 hnodes
    have hbehind : Avoids [';'] ((nodes.flatMap fun m => chars (m.block g) ++ ['\n']) ++ rest) := by
      cases nodes with
      | nil => exact hrest
      | cons next nodes =>
        rw [List.flatMap_cons, List.append_assoc, List.append_assoc]
        exact avoids_block (hnodes next List.mem_cons_self).name g _
    have hline : Gap ['\n'] := gap_cons (by decide) gap_nil
    have hblank : Gap [' '] := gap_cons (by decide) gap_nil
    have hblock : ((m :: nodes).flatMap fun m => chars (m.block g) ++ ['\n']) ++ rest =
        [] ++ (m.name.toList ++ ([' '] ++ '[' :: (("type=\"".toList ++ (m.kind.name.toList ++ '"' ::
          listed m.indent (m.attributes g))) ++ (['\n'] ++ ([] ++
            ((nodes.flatMap fun m => chars (m.block g) ++ ['\n']) ++ rest)))))) := by
      rw [List.flatMap_cons, List.append_assoc, List.append_assoc, chars_block_append]
      simp
    rw [hblock] at hcs
    obtain ⟨s, next, hnext, hless, hgives, hitem⟩ := Source.Reader.gives_listedTask hm.name gap_nil
      hblank (attributesText_declared (g := g) hm) hline (.inl rfl) hbehind hcs
    obtain ⟨front, mid, hsteps, hmid, hlength, hitems⟩ := ih hnodes hnext
    refine ⟨s :: front, mid, .step hgives hsteps, hmid, ?_, ?_⟩
    · rw [List.length_cons]
      omega
    · rw [List.map_cons, List.map_cons, hitem, hitems, String.ofList_toList]

end Node

namespace TaskGraph

variable {g : TaskGraph} {front rest : List Node} {n : Node}

/-- The text of a graph is cut in front of the block of a task. -/
theorem exists_source_eq (g : TaskGraph) (hwritten : g.written = front ++ n :: rest) :
    ∃ behind, g.source.toList =
      (front.flatMap fun m => chars (m.block g) ++ ['\n']) ++ (chars (n.block g) ++ behind) := by
  rw [source, Document.toList_joined, bodyLines_eq, chars_blocks, hwritten, List.map_append, List.map_cons,
    List.append_assoc, List.cons_append, Text.joinWith_append_cons, Text.joinWith_cons, List.flatMap_map]
  exact ⟨_, rfl⟩

/-- The blocks of tasks in front of a value that ends where it should not are read as ever,
and so are the name and the type of its own task. -/
theorem WellFormed.items_of_read (h : g.WellFormed) (hwritten : g.written = front ++ n :: rest)
    (hbalanced : ∀ m ∈ front, m.AnglesBalanced) {all : List Statement}
    (hread : Source.read g.source.toList = .ok all) :
    ∃ pairs items, all.map Statement.item =
      (front.map fun m => .task m.name (m.declared g)) ++
        .task n.name (("type", n.kind.name) :: pairs) :: items := by
  have hname : ∀ m ∈ g.written, Identifier.isWord m.name.toList = true := fun m hm =>
    Source.isWord_of_isValid (h.validNames m (List.mem_filter.1 hm).1)
  have hlegible : ∀ m ∈ front, m.Legible := by
    intro m hm
    have hmem : m ∈ g.written := hwritten ▸ List.mem_append_left _ hm
    exact ⟨hname m hmem, h.isWord_incoming (List.mem_filter.1 hmem).1, hbalanced m hm⟩
  have hn : n ∈ g.written := hwritten ▸ List.mem_append_right _ List.mem_cons_self
  obtain ⟨behind, htext⟩ := g.exists_source_eq hwritten
  -- The text begins with the block of a task.
  have hbegins : ∃ m ∈ g.written, ∃ more, g.source.toList = chars (m.block g) ++ more := by
    rw [htext]
    cases front with
    | nil => exact ⟨n, hn, behind, rfl⟩
    | cons m front =>
      rw [List.flatMap_cons, List.append_assoc, List.append_assoc]
      exact ⟨m, hwritten ▸ List.mem_cons_self, _, rfl⟩
  obtain ⟨m, hm, more, hmore⟩ := hbegins
  have hself : Source.skipGaps g.source.toList = g.source.toList := by
    rw [hmore]
    exact Node.skipGaps_block (hname m hm) g more
  have hgraph : Source.Reader.graph.Gives (Source.skipGaps g.source.toList) none := by
    rw [hself, hmore]
    exact Node.gives_graph_none_block (hname m hm) g more
  obtain ⟨first, mid, hsteps, hmid, hlength, hitems⟩ := Node.steps_blocks (g := g) hlegible
    (Node.avoids_block (hname n hn) g behind) (congrArg Source.skipGaps htext)
  rw [← hself] at hsteps hlength
  have hblank : Gap [' '] := gap_cons (by decide) gap_nil
  obtain ⟨next, htype⟩ := n.gives_type g behind
  rw [Node.chars_block_append] at hmid
  obtain ⟨s, others, pairs, rfl, hitem⟩ := Source.Reader.exists_task_of_read hgraph hsteps hlength
    hmid (hname n hn) gap_nil hblank htype (by simp) hread
  rw [List.map_append, List.map_cons, hitems, hitem, String.ofList_toList]
  exact ⟨pairs, _, rfl⟩

/-- Tasks in front of a value that ends where it should not are declared as ever, and so are
the name and the kind of its own task. -/
theorem WellFormed.exists_of_parse (h : g.WellFormed) (hwritten : g.written = front ++ n :: rest)
    (hbalanced : ∀ m ∈ front, m.AnglesBalanced) {p : ParsedSource} (hparse : Source.parse g.source = .ok p) :
    ∃ before task after, p.tasks = before ++ task :: after ∧
      List.Forall₂ (fun m t => Declares (m.name, m.declared g) t) front before ∧
      task.name = n.name ∧ task.kind = n.kind := by
  obtain ⟨all, hread, htasks⟩ := Source.exists_read_of_parse hparse
  obtain ⟨pairs, items, hitems⟩ := h.items_of_read hwritten hbalanced hread
  have hdeclarations : declarations (all.map Statement.item) =
      (front.map fun m => (m.name, m.declared g)) ++
        (n.name, ("type", n.kind.name) :: pairs) :: declarations items := by
    rw [hitems, declarations, List.filterMap_append, List.filterMap_map]
    exact congrArg (· ++ _) (congrFun List.filterMap_eq_map' front)
  rw [hdeclarations] at htasks
  obtain ⟨before, behind, hsplit, hbefore, hbehind⟩ := forall₂_of_append htasks
  rw [List.forall₂_map_left_iff] at hbefore
  cases hbehind with
  | @cons _ task _ after htask hafter =>
    refine ⟨before, task, after, hsplit, hbefore, htask.name, ?_⟩
    have hlookup : ((("type", n.kind.name) :: pairs).lookup "type") = some n.kind.name :=
      List.lookup_cons_self
    have hkind := htask.kind
    rw [Source.declaredKind?, hlookup, Option.bind_some, TaskKind.ofText?_name] at hkind
    exact (Option.some.inj hkind).symm

theorem Reads.tasks_eq {p : ParsedSource} (h : g.Reads p) :
    p.tasks.map (fun t => (t.name, t.kind)) = g.written.map fun m => (m.name, m.kind) := by
  refine (map_eq_of_forall₂ h.tasks fun m task htask => ?_).symm
  have hkind := htask.kind
  rw [Node.declaredKind?_declared] at hkind
  rw [Option.some.inj hkind, htask.name]

/-- The text of a graph declares the written tasks and the edges between them if every list
can stand between angle brackets.  Otherwise, if it is read, it is right up to the first
task with a list that cannot. -/
theorem parse_source_declares (hg : g.Built) :
    ((∀ m ∈ g.written, m.AnglesBalanced) → ∃ p, Source.parse g.source = .ok p ∧
      p.tasks.map (fun t => (t.name, t.kind)) = g.written.map (fun m => (m.name, m.kind)) ∧
      p.edges = g.writtenEdges.map Edge.named) ∧
    ∀ front n rest p, g.written = front ++ n :: rest → (∀ m ∈ front, m.AnglesBalanced) →
      Source.parse g.source = .ok p →
      ∃ before task after, p.tasks = before ++ task :: after ∧
        List.Forall₂ (fun m t => Declares (m.name, m.declared g) t) front before ∧
        task.name = n.name ∧ task.kind = n.kind := by
  have h := hg.sound
  constructor
  · intro hbalanced
    obtain ⟨p, hparse, hp⟩ := h.parse_of_text (h.wellFormed.statementsText_source hbalanced)
    exact ⟨p, hparse, hp.tasks_eq, hp.edges⟩
  · exact fun front n rest p hwritten hbalanced hparse =>
      h.wellFormed.exists_of_parse hwritten hbalanced hparse

/-- A fetched value and a sum whose items close the list and go on as tasks. -/
def forgedGraph : TaskGraph :=
  empty.afterAll [.addNamed .http "fetch" .origin none, .addNamed .sum "total" .origin none,
    .setFields "node_2" [("values", "1 ]> ] evil [type=any] x [type=sum values=<[ 2")]]

theorem parse_source_declares_forgedGraph :
    forgedGraph.Built ∧ ∃ p, Source.parse forgedGraph.source = .ok p ∧
      p.tasks.map (fun t => (t.name, t.kind)) =
        [("fetch", .http), ("total", .sum), ("evil", .any), ("x", .sum)] ∧
      ∃ before task after, p.tasks = before ++ task :: after ∧
        before.map ParsedTask.name = ["fetch"] ∧ task.name = "total" ∧ task.kind = .sum := by
  have hbuilt : forgedGraph.Built := ⟨_, rfl⟩
  have hread : (Source.parse forgedGraph.source).map (fun p => p.tasks.map fun t => (t.name, t.kind)) =
      .ok [("fetch", .http), ("total", .sum), ("evil", .any), ("x", .sum)] := by decide +kernel
  have hwritten : ∃ front n, forgedGraph.written = front ++ n :: [] ∧ front.map Node.name = ["fetch"] ∧
      n.name = "total" ∧ n.kind = .sum ∧ ∀ m ∈ front, m.AnglesBalanced :=
    ⟨forgedGraph.written.dropLast, forgedGraph.written.getLast (by decide),
      (List.dropLast_append_getLast _).symm, by decide, by decide, by decide, by decide⟩
  refine ⟨hbuilt, ?_⟩
  cases hparse : Source.parse forgedGraph.source with
  | error error =>
    rw [hparse] at hread
    cases hread
  | ok p =>
    rw [hparse] at hread
    obtain ⟨front, n, hsplit, hfront, hname, hkind, hbalanced⟩ := hwritten
    obtain ⟨before, task, after, htasks, hbefore, htask, hsum⟩ :=
      (parse_source_declares hbuilt).2 front n [] p hsplit hbalanced hparse
    refine ⟨p, rfl, Except.ok.inj hread, before, task, after, htasks, ?_, htask.trans hname, hsum.trans hkind⟩
    rw [← hfront]
    exact (map_eq_of_forall₂ hbefore fun _ _ hdeclares => hdeclares.name.symm).symm

end TaskGraph
end JobPipeline
