import JobPipeline.Proofs.Matching
import JobPipeline.Proofs.Source.Statements
import JobPipeline.Source.Parsed
import Mathlib.Data.List.Nodup

/-
What a text declares.

From the statements on, parsing looks at declarations and arrows only: their
places in the text word the errors.  So the parsed pipeline is determined by the
items, and a text that lays out items with distinct names, known types and
declared ends is parsed to exactly what they say.
-/
namespace JobPipeline
namespace Source

namespace Item

def declaration? : Item → Option (String × List (String × String))
  | .task name attributes => some (name, attributes)
  | .chain _ => none

def pairs : Item → List ParsedEdge
  | .task .. => []
  | .chain names => consecutive names

end Item

/-- The tasks that are declared, each with its attributes. -/
def declarations (items : List Item) : List (String × List (String × String)) :=
  items.filterMap Item.declaration?

def allPairs (items : List Item) : List ParsedEdge := items.flatMap Item.pairs

/-- The attributes of a declaration but its type. -/
def fieldTexts (attributes : List (String × String)) : Dict FieldText :=
  Dict.ofList ((attributes.eraseP fun a => a.1 = "type").map fun (key, text) =>
    (key, FieldText.verbatim text))

/-- The kind that a declaration names. -/
def declaredKind? (attributes : List (String × String)) : Option TaskKind :=
  (attributes.lookup "type").bind TaskKind.ofText?

/-- A task is what a declaration says, apart from its id and its line. -/
structure Declares (d : String × List (String × String)) (task : ParsedTask) : Prop where
  name : task.name = d.1
  kind : declaredKind? d.2 = some task.kind
  attributes : task.attributes = fieldTexts d.2

theorem declares_iff {tasks : List ParsedTask} {name : String} :
    declares tasks name = true ↔ name ∈ tasks.map ParsedTask.name := by
  simp [declares]

theorem declare_eq (cs : List Char) {tasks : List ParsedTask} {name : String}
    {attributes : List (String × String)} (left : Nat)
    (hnew : name ∉ tasks.map ParsedTask.name) (hkind : (declaredKind? attributes).isSome = true) :
    ∃ task, declare cs tasks name attributes left = .ok task ∧ Declares (name, attributes) task := by
  obtain ⟨kind, hkind⟩ := Option.isSome_iff_exists.1 hkind
  obtain ⟨type, htype, hof⟩ := Option.bind_eq_some_iff.1 hkind
  have hfree : declares tasks name = false := by
    rw [Bool.eq_false_iff]
    exact fun h => hnew (declares_iff.1 h)
  refine ⟨⟨"node_" ++ toString (tasks.length + 1), name, kind, fieldTexts attributes,
    (locate cs left).line⟩, ?_, ⟨rfl, hkind, rfl⟩⟩
  rw [declare]
  simp only [hfree, htype, hof]
  rfl

theorem declares_of_declare {cs : List Char} {tasks : List ParsedTask} {name : String}
    {attributes : List (String × String)} {left : Nat} {task : ParsedTask}
    (h : declare cs tasks name attributes left = .ok task) : Declares (name, attributes) task := by
  rw [declare] at h
  split at h
  · cases h
  · split at h
    · cases h
    · next type htype =>
      split at h
      · cases h
      · next kind hkind =>
        cases h
        exact ⟨rfl, by rw [declaredKind?, htype]; exact hkind, rfl⟩

/-- Distinct names with known types are all declared, in their order. -/
theorem declareAll_eq (cs : List Char) {statements : List Statement} {tasks : List ParsedTask}
    (hnames : (tasks.map ParsedTask.name ++
      (declarations (statements.map Statement.item)).map Prod.fst).Nodup)
    (hkinds : ∀ d ∈ declarations (statements.map Statement.item),
      (declaredKind? d.2).isSome = true) :
    ∃ new, declareAll cs statements tasks = .ok (tasks ++ new) ∧
      List.Forall₂ Declares (declarations (statements.map Statement.item)) new := by
  induction statements generalizing tasks with
  | nil => exact ⟨[], by rw [declareAll, List.append_nil], .nil⟩
  | cons statement rest ih =>
    cases statement with
    | chain names left =>
      obtain ⟨new, hall, hnew⟩ := ih hnames hkinds
      exact ⟨new, hall, hnew⟩
    | task name attributes left =>
      have hcons : declarations ((Statement.task name attributes left :: rest).map Statement.item) =
          (name, attributes) :: declarations (rest.map Statement.item) := rfl
      rw [hcons] at hnames hkinds ⊢
      have hfresh : name ∉ tasks.map ParsedTask.name := fun hmem =>
        (List.nodup_append'.1 hnames).2.2 hmem List.mem_cons_self
      obtain ⟨task, htask, hdeclares⟩ := declare_eq cs left hfresh
        (hkinds _ List.mem_cons_self)
      have hnames' : ((tasks ++ [task]).map ParsedTask.name ++
          (declarations (rest.map Statement.item)).map Prod.fst).Nodup := by
        rw [List.map_append, List.map_singleton, hdeclares.name, List.append_assoc]
        exact hnames
      obtain ⟨new, hall, hnew⟩ := ih hnames' fun d hd => hkinds d (List.mem_cons_of_mem _ hd)
      refine ⟨task :: new, ?_, .cons hdeclares hnew⟩
      rw [declareAll, htask]
      show declareAll cs rest (tasks ++ [task]) = _
      rw [hall, List.append_assoc, List.singleton_append]

/-- What is declared is declared in the order of the statements. -/
theorem forall₂_of_declareAll (cs : List Char) {statements : List Statement}
    {tasks all : List ParsedTask} (h : declareAll cs statements tasks = .ok all) :
    ∃ new, all = tasks ++ new ∧
      List.Forall₂ Declares (declarations (statements.map Statement.item)) new := by
  induction statements generalizing tasks with
  | nil =>
    cases h
    exact ⟨[], (List.append_nil _).symm, .nil⟩
  | cons statement rest ih =>
    cases statement with
    | chain names left => exact ih h
    | task name attributes left =>
      rw [declareAll] at h
      cases htask : declare cs tasks name attributes left with
      | error error =>
        rw [htask] at h
        cases h
      | ok task =>
        rw [htask] at h
        obtain ⟨new, rfl, hnew⟩ := ih h
        refine ⟨task :: new, by rw [List.append_assoc, List.singleton_append], .cons ?_ hnew⟩
        exact declares_of_declare htask

theorem arrows_fst (statements : List Statement) :
    (arrows statements).map Prod.fst = allPairs (statements.map Statement.item) := by
  induction statements with
  | nil => rfl
  | cons statement rest ih =>
    cases statement with
    | task name attributes left => exact ih
    | chain names left =>
      have hfirst : ((consecutive names).map fun e => (e, left)).map Prod.fst = consecutive names := by
        rw [List.map_map]
        exact List.map_id' _
      rw [arrows, List.map_append, hfirst, ih]
      rfl

/-- An edge is kept where it comes first. -/
def keepFirst (edges : List ParsedEdge) (edge : ParsedEdge) : List ParsedEdge :=
  if edge ∈ edges then edges else edges ++ [edge]

theorem joinAll_eq (cs : List Char) {tasks : List ParsedTask} (found : List (ParsedEdge × Nat))
    (h : ∀ e ∈ found.map Prod.fst, e.source ∈ tasks.map ParsedTask.name ∧
      e.target ∈ tasks.map ParsedTask.name) (edges : List ParsedEdge) :
    joinAll cs tasks found edges = .ok ((found.map Prod.fst).foldl keepFirst edges) := by
  induction found generalizing edges with
  | nil => rfl
  | cons head rest ih =>
    obtain ⟨edge, left⟩ := head
    have hends := h edge List.mem_cons_self
    have hnone : ([edge.source, edge.target].find? fun name => !declares tasks name) = none := by
      simp [declares_iff.2 hends.1, declares_iff.2 hends.2]
    rw [joinAll, hnone]
    exact ih (fun e he => h e (List.mem_cons_of_mem _ he)) _

/-- Nothing is dropped from edges without repetition. -/
theorem foldl_keepFirst {edges new : List ParsedEdge} (h : (edges ++ new).Nodup) :
    new.foldl keepFirst edges = edges ++ new := by
  induction new generalizing edges with
  | nil => exact (List.append_nil edges).symm
  | cons edge new ih =>
    have hfresh : edge ∉ edges := fun hmem =>
      (List.nodup_append'.1 h).2.2 hmem List.mem_cons_self
    have happend : edges ++ edge :: new = edges ++ [edge] ++ new := by
      rw [List.append_assoc, List.singleton_append]
    rw [List.foldl_cons, keepFirst, if_neg hfresh, ih (happend ▸ h), happend]

theorem Reader.Gives.read {cs rest : List Char} {all : List Statement}
    (h : Reader.source.Gives cs (some (all, rest))) : Source.read cs = .ok all := by
  rw [Source.read]
  have hfirst := h ⟨cs.length, []⟩
  cases hresult : Reader.source cs ⟨cs.length, []⟩ with
  | mk answer f =>
    rw [hresult] at hfirst
    cases hfirst
    rfl

/-- The three passes over a text that is parsed. -/
theorem parse_eq_ok_iff {text : String} {p : ParsedSource} :
    parse text = .ok p ↔ ∃ all, read text.toList = .ok all ∧
      declareAll text.toList all [] = .ok p.tasks ∧
      joinAll text.toList p.tasks (arrows all) [] = .ok p.edges := by
  rw [parse]
  cases read text.toList with
  | error error => simp
  | ok all =>
    cases hdeclared : declareAll text.toList all [] with
    | error error => simp [hdeclared]
    | ok tasks =>
      constructor
      · intro h
        cases hjoined : joinAll text.toList tasks (arrows all) [] with
        | error error => simp [hdeclared, hjoined] at h
        | ok edges =>
          simp only [hdeclared, hjoined, Except.ok.injEq] at h
          subst h
          exact ⟨all, rfl, hdeclared, hjoined⟩
      · rintro ⟨all', hread, htasks, hedges⟩
        cases hread
        cases hdeclared.symm.trans htasks
        simp only [hdeclared, hedges]

/-- A text that is parsed is read, and its tasks are those that are declared. -/
theorem exists_read_of_parse {text : String} {p : ParsedSource} (h : parse text = .ok p) :
    ∃ all, read text.toList = .ok all ∧
      List.Forall₂ Declares (declarations (all.map Statement.item)) p.tasks := by
  obtain ⟨all, hread, hdeclared, -⟩ := parse_eq_ok_iff.1 h
  obtain ⟨new, hnew, hdeclares⟩ := forall₂_of_declareAll _ hdeclared
  rw [List.nil_append] at hnew
  exact ⟨all, hread, hnew ▸ hdeclares⟩

/-- No task is declared twice. -/
theorem nodup_of_declareAll (cs : List Char) {statements : List Statement} {tasks all : List ParsedTask}
    (h : declareAll cs statements tasks = .ok all) (hnames : (tasks.map ParsedTask.name).Nodup) :
    (all.map ParsedTask.name).Nodup := by
  induction statements generalizing tasks with
  | nil =>
    cases h
    exact hnames
  | cons statement rest ih =>
    cases statement with
    | chain names left => exact ih h hnames
    | task name attributes left =>
      rw [declareAll] at h
      cases hdeclare : declare cs tasks name attributes left with
      | error error =>
        rw [hdeclare] at h
        cases h
      | ok task =>
        have hname : task.name = name := (declares_of_declare hdeclare).name
        have hnew : name ∉ tasks.map ParsedTask.name := by
          intro hmem
          rw [declare, if_pos (declares_iff.2 hmem)] at hdeclare
          cases hdeclare
        rw [hdeclare] at h
        refine ih h ?_
        rw [List.map_append, List.map_singleton, hname]
        exact List.nodup_append'.2 ⟨hnames, List.nodup_singleton name,
          List.disjoint_singleton.2 hnew⟩

theorem nodup_of_parse {text : String} {p : ParsedSource} (h : parse text = .ok p) :
    (p.tasks.map ParsedTask.name).Nodup := by
  obtain ⟨all, -, hdeclared, -⟩ := parse_eq_ok_iff.1 h
  exact nodup_of_declareAll _ hdeclared List.nodup_nil

/-- A text that is read is parsed to what its items say. -/
theorem parse_of_read {text : String} {all : List Statement} (hread : read text.toList = .ok all)
    (hnames : ((declarations (all.map Statement.item)).map Prod.fst).Nodup)
    (hkinds : ∀ d ∈ declarations (all.map Statement.item), (declaredKind? d.2).isSome = true)
    (hends : ∀ e ∈ allPairs (all.map Statement.item),
      e.source ∈ (declarations (all.map Statement.item)).map Prod.fst ∧
        e.target ∈ (declarations (all.map Statement.item)).map Prod.fst) :
    ∃ p, parse text = .ok p ∧ List.Forall₂ Declares (declarations (all.map Statement.item)) p.tasks ∧
      p.edges = (allPairs (all.map Statement.item)).foldl keepFirst [] := by
  obtain ⟨tasks, hdeclared, hdeclares⟩ := @declareAll_eq text.toList _ [] hnames hkinds
  have htaskNames : tasks.map ParsedTask.name =
      (declarations (all.map Statement.item)).map Prod.fst := by
    exact (map_eq_of_forall₂ hdeclares fun _ _ hd => hd.name.symm).symm
  have hjoined := joinAll_eq text.toList (arrows all)
    (by rw [arrows_fst, htaskNames]; exact hends) []
  rw [arrows_fst] at hjoined
  exact ⟨⟨tasks, _⟩, parse_eq_ok_iff.2 ⟨all, hread, hdeclared, hjoined⟩, hdeclares, rfl⟩

/-- A text that is read as items is parsed to what the items say. -/
theorem parse_of_source {text : String} {items : List Item}
    (h : ∃ all, Reader.source.Gives text.toList (some (all, [])) ∧ all.map Statement.item = items)
    (hnames : ((declarations items).map Prod.fst).Nodup)
    (hkinds : ∀ d ∈ declarations items, (declaredKind? d.2).isSome = true)
    (hends : ∀ e ∈ allPairs items, e.source ∈ (declarations items).map Prod.fst ∧
      e.target ∈ (declarations items).map Prod.fst) :
    ∃ p, parse text = .ok p ∧ List.Forall₂ Declares (declarations items) p.tasks ∧
      p.edges = (allPairs items).foldl keepFirst [] := by
  obtain ⟨all, hsource, rfl⟩ := h
  exact parse_of_read hsource.read hnames hkinds hends

/-- A text that lays out items is parsed to what the items say. -/
theorem parse_of_statementsText {text : String} {items : List Item}
    (h : StatementsText items text.toList)
    (hnames : ((declarations items).map Prod.fst).Nodup)
    (hkinds : ∀ d ∈ declarations items, (declaredKind? d.2).isSome = true)
    (hends : ∀ e ∈ allPairs items, e.source ∈ (declarations items).map Prod.fst ∧
      e.target ∈ (declarations items).map Prod.fst) :
    ∃ p, parse text = .ok p ∧ List.Forall₂ Declares (declarations items) p.tasks ∧
      p.edges = (allPairs items).foldl keepFirst [] := by
  have hsource := Reader.gives_source h (show skipGaps [] = [] by rw [skipGaps])
  rw [List.append_nil] at hsource
  exact parse_of_source hsource hnames hkinds hends

end Source
end JobPipeline
