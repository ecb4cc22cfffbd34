import JobPipeline.Proofs.Source.Declared
import JobPipeline.Proofs.Source.Values

/-
Where statements stand in their text.

A reader leaves no more of a text than it was given, so a statement that is read later
begins later, with fewer characters left; and of two places the later one is on no earlier
line.  That is why the lines of the declared tasks do not decrease.
-/
namespace JobPipeline
namespace Source

/-! ## Lines of places -/

theorem line_behind (place : Location) (cs : List Char) :
    (Location.behind place cs).line = place.line + cs.count '\n' := by
  fun_induction Location.behind place cs with
  | case1 => rfl
  | case2 place cs ih =>
    rw [ih, List.count_cons_of_ne (by decide), List.count_cons_self]
    show place.line + 1 + _ = _
    omega
  | case3 place c cs _ ih =>
    rw [ih]
    by_cases hc : c = '\n'
    · rw [if_pos hc, hc, List.count_cons_self]
      show place.line + 1 + _ = _
      omega
    · rw [if_neg hc, List.count_cons_of_ne hc]

/-- With fewer characters left the line is no earlier. -/
theorem line_locate_le (cs : List Char) {left left' : Nat} (h : left' ≤ left) :
    (locate cs left).line ≤ (locate cs left').line := by
  rw [locate, locate, line_behind, line_behind]
  refine Nat.add_le_add_left (List.Sublist.count_le _ ?_) _
  exact List.take_sublist_take_left (Nat.sub_le_sub_left h _)

/-! ## Readers leave no more than they were given -/

namespace Reader

variable {α β : Type}

def Shortens (r : Reader α) : Prop := r.Answers fun cs result => result.2.length ≤ cs.length

theorem shortens_pure (a : α) : (pure a : Reader α).Shortens := by
  intro cs f result hresult
  cases hresult
  exact Nat.le_refl _

theorem shortens_scanning {scan : List Char → Option (α × List Char)}
    (h : ∀ cs, ∀ result ∈ scan cs, result.2.length ≤ cs.length) : (scanning scan).Shortens := fun cs _ => h cs

theorem Shortens.bind {r : Reader α} {next : α → Reader β} (h : r.Shortens)
    (hnext : ∀ a, (next a).Shortens) : (r >>= next).Shortens :=
  Answers.bind h fun _ taken htaken f result hresult =>
    Nat.le_trans (hnext taken.1 taken.2 f result hresult) htaken

theorem Shortens.optional {r : Reader α} (h : r.Shortens) : (Reader.optional r).Shortens :=
  Answers.orElse (h.bind fun a => shortens_pure (some a)) (shortens_pure none)

theorem Shortens.many {r : Reader α} (h : r.Shortens) : (Reader.many r).Shortens := by
  have hrepeating : ∀ fuel, (Reader.repeating r fuel).Shortens := by
    intro fuel
    induction fuel with
    | zero => exact shortens_pure []
    | succ fuel ih =>
      exact Answers.orElse (h.bind fun a => ih.bind fun as => shortens_pure (a :: as)) (shortens_pure [])
  exact fun cs f => hrepeating (cs.length + 1) cs f

theorem shortens_mark (m : String) : (mark m).Shortens := by
  refine shortens_scanning fun cs result hresult => ?_
  obtain ⟨rest, hrest, rfl⟩ := Option.map_eq_some_iff.1 hresult
  rw [Text.afterMark?_eq_some.1 hrest, List.length_append]
  exact Nat.le_add_left _ _

theorem shortens_gaps : gaps.Shortens := by
  refine shortens_scanning fun cs result hresult => ?_
  cases hresult
  exact length_skipGaps_le cs

theorem shortens_identifier : identifier.Shortens := by
  refine Answers.rule (shortens_scanning fun cs result hresult => ?_) _
  cases cs with
  | nil => cases hresult
  | cons c cs =>
    rw [identifier?] at hresult
    split at hresult
    · cases hresult
      exact Nat.le_succ_of_le (length_dropWhile_le _ cs)
    · cases hresult

theorem shortens_value : (orElse quoted (orElse html bare)).Shortens := by
  have hquoted : quoted.Shortens := by
    refine Answers.rule (shortens_scanning fun cs result hresult => ?_) _
    split at hresult
    · obtain ⟨⟨inner, rest⟩, hinner, rfl⟩ := Option.map_eq_some_iff.1 hresult
      exact Nat.le_succ_of_le (scans_quotedInner.length_le hinner)
    · cases hresult
  have hhtml : html.Shortens := by
    refine Answers.rule (shortens_scanning fun cs result hresult => ?_) _
    split at hresult
    · obtain ⟨⟨inner, rest⟩, hinner, rfl⟩ := Option.map_eq_some_iff.1 hresult
      exact Nat.le_succ_of_le (scans_htmlInner.length_le hinner)
    · cases hresult
  have hbare : bare.Shortens := by
    refine Answers.rule (shortens_scanning fun cs result hresult => ?_) _
    obtain ⟨⟨value, rest⟩, hvalue, rfl⟩ := Option.map_eq_some_iff.1 hresult
    rw [bare?] at hvalue
    split at hvalue
    · cases hvalue
    · cases hvalue
      exact length_dropWhile_le _ cs
  exact Answers.orElse hquoted (Answers.orElse hhtml hbare)

theorem shortens_pair : pair.Shortens :=
  Answers.rule (shortens_identifier.bind fun key => shortens_gaps.bind fun _ => (shortens_mark "=").bind fun _ =>
    shortens_gaps.bind fun _ => shortens_value.bind fun value => shortens_pure (key, value)) _

theorem shortens_listedPair : listedPair.Shortens :=
  shortens_gaps.bind fun _ => shortens_pair.bind fun p => shortens_gaps.bind fun _ =>
    (Shortens.optional (Answers.orElse (shortens_mark ",") (shortens_mark ";"))).bind fun _ => shortens_pure p

theorem shortens_attributes : attributes.Shortens :=
  Answers.rule ((shortens_mark "[").bind fun _ => shortens_listedPair.many.bind fun pairs =>
    shortens_gaps.bind fun _ => (shortens_mark "]").bind fun _ => shortens_pure pairs) _

theorem shortens_arrow : arrow.Shortens :=
  shortens_gaps.bind fun _ => (shortens_mark "->").bind fun _ => shortens_gaps.bind fun _ =>
    shortens_identifier

end Reader

/-- How many characters are left where a statement begins. -/
def Statement.left : Statement → Nat
  | .task _ _ left | .chain _ left => left

namespace Reader

/-- A statement begins where it is read, and nothing in front of it is left over. -/
def Stands (cs : List Char) (result : Statement × List Char) : Prop :=
  result.2.length ≤ result.1.left ∧ result.1.left ≤ cs.length

theorem stands_of_left {body : Nat → Reader Statement} (hshortens : ∀ here, (body here).Shortens)
    (hleft : ∀ here, (body here).Yields fun s => s.left = here) : (left >>= body).Answers Stands := by
  intro cs f result hresult
  change result ∈ (body cs.length cs f).1 at hresult
  have hhere : result.1.left = cs.length := hleft cs.length cs f result hresult
  rw [Stands, hhere]
  exact ⟨hshortens cs.length cs f result hresult, Nat.le_refl _⟩

theorem answers_chain : chain.Answers Stands := by
  rw [chain_eq]
  refine Answers.rule (stands_of_left (fun here => ?_) fun here => ?_) _
  · exact shortens_identifier.bind fun first => shortens_arrow.bind fun second =>
      shortens_arrow.many.bind fun others => shortens_gaps.bind fun _ =>
        shortens_attributes.optional.bind fun _ => shortens_pure _
  · exact (yields_any _).bind fun _ _ => (yields_any _).bind fun _ _ => (yields_any _).bind fun _ _ =>
      (yields_any _).bind fun _ _ => (yields_any _).bind fun _ _ => yields_pure rfl

theorem answers_task : task.Answers Stands := by
  refine Answers.rule (stands_of_left (fun here => ?_) fun here => ?_) _
  · exact shortens_identifier.bind fun name => shortens_gaps.bind fun _ =>
      shortens_attributes.optional.bind fun given => shortens_pure _
  · exact (yields_any _).bind fun _ _ => (yields_any _).bind fun _ _ => (yields_any _).bind fun _ _ =>
      yields_pure rfl

/-- A statement of a list, from its own start on. -/
def endedStatement : Reader Statement := do
  let s ← orElse chain task
  gaps
  let _ ← optional (mark ";")
  return s

theorem listedStatement_eq : listedStatement = (gaps >>= fun _ => endedStatement) := rfl

theorem answers_endedStatement : endedStatement.Answers Stands := by
  refine Answers.bind (Answers.orElse answers_chain answers_task) fun cs taken htaken f result hresult => ?_
  have hshortens : (gaps >>= fun _ => optional (mark ";") >>= fun _ => (pure taken.1 : Reader Statement)).Shortens :=
    shortens_gaps.bind fun _ => (shortens_mark ";").optional.bind fun _ => shortens_pure taken.1
  have hsame : (gaps >>= fun _ => optional (mark ";") >>= fun _ => (pure taken.1 : Reader Statement)).Yields
      (· = taken.1) :=
    (yields_any _).bind fun _ _ => (yields_any _).bind fun _ _ => yields_pure rfl
  rw [Stands, hsame taken.2 f result hresult]
  exact ⟨Nat.le_trans (hshortens taken.2 f result hresult) htaken.1, htaken.2⟩

theorem answers_listedStatement : listedStatement.Answers Stands := by
  rw [listedStatement_eq]
  refine Answers.bind shortens_gaps fun cs taken htaken f result hresult => ?_
  obtain ⟨hrest, hleft⟩ := answers_endedStatement taken.2 f result hresult
  exact ⟨hrest, Nat.le_trans hleft htaken⟩

/-- Statements stand one behind another. -/
def Descending (cs : List Char) (result : List Statement × List Char) : Prop :=
  result.1.Pairwise (fun s s' => s'.left ≤ s.left) ∧ ∀ s ∈ result.1, s.left ≤ cs.length

theorem answers_repeating (fuel : Nat) : (repeating listedStatement fuel).Answers Descending := by
  have hnone : (done [] : Reader (List Statement)).Answers Descending := by
    intro cs f result hresult
    cases hresult
    exact ⟨.nil, List.forall_mem_nil _⟩
  induction fuel with
  | zero => exact hnone
  | succ fuel ih =>
    refine Answers.orElse (Answers.bind answers_listedStatement fun cs s hs f result hresult => ?_) hnone
    have hmore : ((repeating listedStatement fuel).andThen fun as => done (s.1 :: as)).Answers fun cs result =>
        ∃ as, result.1 = s.1 :: as ∧ Descending cs (as, result.2) :=
      Answers.bind ih fun cs more hmore f result hresult => by
        cases hresult
        exact ⟨more.1, rfl, hmore⟩
    obtain ⟨as, has, hpairwise, hbound⟩ := hmore s.2 f result hresult
    rw [Descending, has, List.pairwise_cons, List.forall_mem_cons]
    refine ⟨⟨fun s' hs' => Nat.le_trans (hbound s' hs') hs.1, hpairwise⟩, hs.2, fun s' hs' => ?_⟩
    exact Nat.le_trans (hbound s' hs') (Nat.le_trans hs.1 hs.2)

theorem yields_descending : statements.Yields fun all => all.Pairwise fun s s' => s'.left ≤ s.left := by
  rw [statements_eq]
  exact fun cs f result hresult => (answers_repeating (cs.length + 1) cs f result hresult).1

end Reader

/-! ## Lines of tasks -/

/-- The line of the task that a statement declares. -/
def taskLine? (cs : List Char) : Statement → Option Nat
  | .task _ _ left => some (locate cs left).line
  | .chain .. => none

theorem line_of_declare {cs : List Char} {tasks : List ParsedTask} {name : String}
    {attributes : List (String × String)} {left : Nat} {task : ParsedTask}
    (h : declare cs tasks name attributes left = .ok task) : task.line = (locate cs left).line := by
  rw [declare] at h
  split at h
  · cases h
  · split at h
    · cases h
    · split at h
      · cases h
      · cases h
        rfl

theorem lines_of_declareAll (cs : List Char) {statements : List Statement} {tasks all : List ParsedTask}
    (h : declareAll cs statements tasks = .ok all) :
    all.map ParsedTask.line = tasks.map ParsedTask.line ++ statements.filterMap (taskLine? cs) := by
  induction statements generalizing tasks with
  | nil =>
    cases h
    rw [List.filterMap_nil, List.append_nil]
  | cons statement rest ih =>
    cases statement with
    | chain names left => exact ih h
    | task name attributes left =>
      rw [declareAll] at h
      cases hdeclare : declare cs tasks name attributes left with
      | error error =>
        rw [hdeclare] at h
        cases h
      | ok task =>
        rw [hdeclare] at h
        rw [ih h, List.map_append, List.map_singleton, line_of_declare hdeclare, List.append_assoc]
        rfl

/-- Tasks that are declared later stand on no earlier line. -/
theorem pairwise_line_of_parse {text : String} {p : ParsedSource} (h : parse text = .ok p) :
    (p.tasks.map ParsedTask.line).Pairwise (· ≤ ·) := by
  obtain ⟨all, hread, hdeclared, -⟩ := parse_eq_ok_iff.1 h
  have hdescending := Reader.holds_of_read Reader.yields_descending hread
  rw [lines_of_declareAll _ hdeclared, List.map_nil, List.nil_append]
  refine hdescending.filterMap _ fun s s' hle line hline line' hline' => ?_
  cases s with
  | chain names left => cases hline
  | task name attributes left =>
    cases s' with
    | chain names left => cases hline'
    | task name' attributes' left' =>
      cases hline
      cases hline'
      exact line_locate_le _ hle

end Source
end JobPipeline
