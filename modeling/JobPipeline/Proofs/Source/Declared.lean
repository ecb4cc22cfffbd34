import JobPipeline.Proofs.Source.Parsing

/-
What is known of a parsed pipeline, whatever the text was.

Names are read as words and nothing else is put in their place; ids count the
declarations; and of the arrows those are kept that join declared tasks, each where it
comes first.  Each of the three passes over a text keeps its own part of this: reading,
declaring and joining.
-/
namespace JobPipeline
namespace Source

/-- The names of a statement are words. -/
def Item.Worded : Item → Prop
  | .task name _ => Identifier.isWord name.toList = true
  | .chain names => ∀ name ∈ names, Identifier.isWord name.toList = true

theorem isWord_of_identifier? {cs : List Char} {result : String × List Char}
    (h : result ∈ identifier? cs) : Identifier.isWord result.1.toList = true := by
  cases cs with
  | nil => cases h
  | cons c cs =>
    rw [identifier?] at h
    split at h
    · next hstart =>
      cases h
      rw [String.toList_ofList, Identifier.isWord, hstart, Bool.true_and]
      exact List.all_takeWhile
    · cases h

namespace Reader

theorem yields_identifier : identifier.Yields fun name => Identifier.isWord name.toList = true :=
  (yields_scanning fun _ _ h => isWord_of_identifier? h).rule _

theorem yields_arrow : arrow.Yields fun name => Identifier.isWord name.toList = true :=
  (yields_any _).bind fun _ _ => (yields_any _).bind fun _ _ => (yields_any _).bind fun _ _ =>
    yields_identifier

theorem yields_chain : chain.Yields fun s => s.item.Worded := by
  rw [chain_eq]
  refine ((yields_any _).bind fun here _ => yields_identifier.bind fun first hfirst =>
    yields_arrow.bind fun second hsecond => yields_arrow.many.bind fun others hothers =>
      (yields_any _).bind fun _ _ => (yields_any _).bind fun _ _ => yields_pure ?_).rule _
  exact List.forall_mem_cons.2 ⟨hfirst, List.forall_mem_cons.2 ⟨hsecond, hothers⟩⟩

theorem yields_task : task.Yields fun s => s.item.Worded :=
  ((yields_any _).bind fun _ _ => yields_identifier.bind fun _ hname => (yields_any _).bind fun _ _ =>
    (yields_any _).bind fun _ _ => yields_pure hname).rule _

theorem yields_listedStatement : listedStatement.Yields fun s => s.item.Worded :=
  (yields_any _).bind fun _ _ => (yields_chain.orElse yields_task).bind fun _ hs =>
    (yields_any _).bind fun _ _ => (yields_any _).bind fun _ _ => yields_pure hs

theorem yields_statements : statements.Yields fun all => ∀ s ∈ all, s.item.Worded :=
  yields_listedStatement.many

/-- What holds of every list of statements holds of a whole text, in a graph or not. -/
theorem yields_source {P : List Statement → Prop} (h : statements.Yields P) : source.Yields P := by
  have hgraph : graph.Yields P :=
    (yields_any _).bind fun _ _ => (yields_any _).bind fun _ _ => (yields_any _).bind fun _ _ =>
      (yields_any _).bind fun _ _ => (yields_any _).bind fun _ _ => (yields_any _).bind fun _ _ =>
        h.bind fun _ hall => (yields_any _).bind fun _ _ => (yields_any _).bind fun _ _ => yields_pure hall
  exact ((yields_any _).bind fun _ _ => (hgraph.orElse h).bind fun _ hall =>
    (yields_any _).bind fun _ _ => (yields_any _).bind fun _ _ => yields_pure hall).rule _

theorem holds_of_read {P : List Statement → Prop} (h : statements.Yields P) {cs : List Char}
    {all : List Statement} (hread : read cs = .ok all) : P all := by
  have hyields := yields_source h cs ⟨cs.length, []⟩
  rw [read] at hread
  cases hsource : source cs ⟨cs.length, []⟩ with
  | mk answer f =>
    rw [hsource] at hread hyields
    cases answer with
    | none => cases hread
    | some result =>
      cases hread
      exact hyields result rfl

end Reader

theorem worded_of_read {cs : List Char} {all : List Statement} (h : read cs = .ok all) :
    ∀ s ∈ all, s.item.Worded := Reader.holds_of_read Reader.yields_statements h

/-! ## Declaring -/

theorem id_of_declare {cs : List Char} {tasks : List ParsedTask} {name : String}
    {attributes : List (String × String)} {left : Nat} {task : ParsedTask}
    (h : declare cs tasks name attributes left = .ok task) :
    task.id = "node_" ++ toString (tasks.length + 1) := by
  rw [declare] at h
  split at h
  · cases h
  · split at h
    · cases h
    · split at h
      · cases h
      · cases h
        rfl

/-- The ids of so many tasks. -/
def idsTo (n : Nat) : List String := (List.range n).map fun k => "node_" ++ toString (k + 1)

theorem idsTo_succ (n : Nat) : idsTo (n + 1) = idsTo n ++ ["node_" ++ toString (n + 1)] := by
  rw [idsTo, List.range_succ, List.map_append]
  rfl

/-- Ids count the declarations. -/
theorem ids_of_declareAll (cs : List Char) {statements : List Statement} {tasks all : List ParsedTask}
    (h : declareAll cs statements tasks = .ok all)
    (hids : tasks.map ParsedTask.id = idsTo tasks.length) : all.map ParsedTask.id = idsTo all.length := by
  induction statements generalizing tasks with
  | nil =>
    cases h
    exact hids
  | cons statement rest ih =>
    cases statement with
    | chain names left => exact ih h hids
    | task name attributes left =>
      rw [declareAll] at h
      cases hdeclare : declare cs tasks name attributes left with
      | error error =>
        rw [hdeclare] at h
        cases h
      | ok task =>
        rw [hdeclare] at h
        refine ih h ?_
        rw [List.map_append, List.map_singleton, hids, id_of_declare hdeclare, List.length_append,
          List.length_singleton, idsTo_succ]

/-! ## Joining -/

/-- Edges are joined if both ends are declared, and then each is kept where it comes first. -/
theorem edges_of_joinAll {cs : List Char} {tasks : List ParsedTask} {found : List (ParsedEdge × Nat)}
    {edges all : List ParsedEdge} (h : joinAll cs tasks found edges = .ok all) :
    (∀ e ∈ found.map Prod.fst, e.source ∈ tasks.map ParsedTask.name ∧
      e.target ∈ tasks.map ParsedTask.name) ∧ all = (found.map Prod.fst).foldl keepFirst edges := by
  induction found generalizing edges with
  | nil =>
    cases h
    exact ⟨fun e he => (by cases he), rfl⟩
  | cons head rest ih =>
    obtain ⟨edge, left⟩ := head
    rw [joinAll] at h
    split at h
    · cases h
    · next hfind =>
      obtain ⟨hrest, hall⟩ := ih h
      refine ⟨List.forall_mem_cons.2 ⟨?_, hrest⟩, hall⟩
      have hboth : ∀ name ∈ [edge.source, edge.target], declares tasks name = true := by
        intro name hname
        have := List.find?_eq_none.1 hfind name hname
        simpa using this
      exact ⟨declares_iff.1 (hboth _ List.mem_cons_self),
        declares_iff.1 (hboth _ (List.mem_cons_of_mem _ List.mem_cons_self))⟩

theorem mem_keepFirst {edges : List ParsedEdge} {edge e : ParsedEdge} :
    e ∈ keepFirst edges edge ↔ e ∈ edges ∨ e = edge := by
  rw [keepFirst]
  split
  · next hmem =>
    refine ⟨.inl, fun he => he.elim id ?_⟩
    rintro rfl
    exact hmem
  · rw [List.mem_append, List.mem_singleton]

theorem mem_foldl_keepFirst {new edges : List ParsedEdge} {e : ParsedEdge} :
    e ∈ new.foldl keepFirst edges ↔ e ∈ edges ∨ e ∈ new := by
  induction new generalizing edges with
  | nil => simp
  | cons edge new ih => rw [List.foldl_cons, ih, mem_keepFirst, List.mem_cons, or_assoc]

theorem nodup_foldl_keepFirst (new : List ParsedEdge) {edges : List ParsedEdge} (h : edges.Nodup) :
    (new.foldl keepFirst edges).Nodup := by
  induction new generalizing edges with
  | nil => exact h
  | cons edge new ih =>
    refine ih ?_
    rw [keepFirst]
    split
    · exact h
    · next hnew =>
      exact List.nodup_append'.2 ⟨h, List.nodup_singleton edge, List.disjoint_singleton.2 hnew⟩

end Source

/-- What is known of a pipeline that some text declares. -/
structure ParsedSource.Declared (p : ParsedSource) : Prop where
  ids : p.tasks.map ParsedTask.id = Source.idsTo p.tasks.length
  names : (p.tasks.map ParsedTask.name).Nodup
  words : ∀ t ∈ p.tasks, Identifier.isWord t.name.toList = true
  ends : ∀ e ∈ p.edges, e.source ∈ p.tasks.map ParsedTask.name ∧ e.target ∈ p.tasks.map ParsedTask.name
  once : p.edges.Nodup

namespace Source

theorem declared_of_parse {text : String} {p : ParsedSource} (h : parse text = .ok p) : p.Declared := by
  have hnames := nodup_of_parse h
  obtain ⟨all, hread, hdeclared, hjoined⟩ := parse_eq_ok_iff.1 h
  obtain ⟨hends, hedges⟩ := edges_of_joinAll hjoined
  refine ⟨ids_of_declareAll _ hdeclared rfl, hnames, fun t ht => ?_, fun e he => ?_, ?_⟩
  · obtain ⟨new, hnew, hdeclares⟩ := forall₂_of_declareAll _ hdeclared
    rw [List.nil_append] at hnew
    rw [hnew] at ht
    obtain ⟨d, hd, htask⟩ := forall₂_right hdeclares ht
    obtain ⟨item, hitem, hdeclaration⟩ := List.mem_filterMap.1 hd
    obtain ⟨s, hs, rfl⟩ := List.mem_map.1 hitem
    have hworded := worded_of_read hread s hs
    cases s with
    | chain names left => cases hdeclaration
    | task name attributes left =>
      cases hdeclaration
      rw [htask.name]
      exact hworded
  · rw [hedges] at he
    exact hends e ((mem_foldl_keepFirst.1 he).resolve_left List.not_mem_nil)
  · rw [hedges]
    exact nodup_foldl_keepFirst _ List.nodup_nil

end Source
end JobPipeline
