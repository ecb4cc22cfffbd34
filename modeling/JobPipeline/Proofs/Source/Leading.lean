import JobPipeline.Proofs.Source.Parsing
import JobPipeline.Proofs.Source.Unfinished

/-
What stands in front of a text that nothing is known of.

Behind a value that is not closed where it should be, a text can go on in any way.  It is
read in one way all the same, and what was read in front of it is not read again: the
tasks in front are declared as ever, and so are the name and the type of the task that
the value belongs to, or else nothing is.
-/
namespace JobPipeline
namespace Source
namespace Reader

/-! ## The grammar is definite -/

theorem definite_mark (m : String) : (mark m).Definite := definite_scanning _

theorem definite_gaps : gaps.Definite := definite_scanning _

theorem definite_identifier : identifier.Definite := (definite_scanning _).rule _

theorem definite_value : (orElse quoted (orElse html bare)).Definite :=
  ((definite_scanning _).rule _).orElse (((definite_scanning _).rule _).orElse
    ((definite_scanning _).rule _))

theorem definite_pair : pair.Definite :=
  (definite_identifier.bind fun key => definite_gaps.bind fun _ => (definite_mark "=").bind fun _ =>
    definite_gaps.bind fun _ => definite_value.bind fun value => definite_pure (key, value)).rule _

theorem definite_listedPair : listedPair.Definite :=
  definite_gaps.bind fun _ => definite_pair.bind fun p => definite_gaps.bind fun _ =>
    ((definite_mark ",").orElse (definite_mark ";")).optional.bind fun _ => definite_pure p

theorem definite_attributes : attributes.Definite :=
  ((definite_mark "[").bind fun _ => definite_listedPair.many.bind fun pairs =>
    definite_gaps.bind fun _ => (definite_mark "]").bind fun _ => definite_pure pairs).rule _

theorem definite_arrow : arrow.Definite :=
  definite_gaps.bind fun _ => (definite_mark "->").bind fun _ => definite_gaps.bind fun _ =>
    definite_identifier

theorem definite_chain : chain.Definite :=
  (definite_left.bind fun here => definite_identifier.bind fun first => definite_arrow.bind fun second =>
    definite_arrow.many.bind fun others => definite_gaps.bind fun _ =>
      definite_attributes.optional.bind fun _ =>
        definite_pure (Statement.chain (first :: second :: others) here)).rule _

theorem definite_task : task.Definite :=
  (definite_left.bind fun here => definite_identifier.bind fun name => definite_gaps.bind fun _ =>
    definite_attributes.optional.bind fun given =>
      definite_pure (Statement.task name (given.getD []) here)).rule _

theorem definite_listedStatement : listedStatement.Definite :=
  definite_gaps.bind fun _ => (definite_chain.orElse definite_task).bind fun s =>
    definite_gaps.bind fun _ => (definite_mark ";").optional.bind fun _ => definite_pure s

/-! ## The first attribute of a task -/

/-- Attributes keep their first pair, or are no attributes. -/
theorem gives_attributes_leading {text next : List Char} {p : String × String}
    (h : listedPair.Gives text (some (p, next))) (hne : text ≠ []) :
    attributes.Gives ('[' :: text) none ∨
      ∃ more rest, attributes.Gives ('[' :: text) (some (p :: more, rest)) := by
  have hsteps : Steps listedPair text [p] next := .step h (.none _)
  obtain ⟨more, rest, -, hmany⟩ := hsteps.many definite_listedPair (List.length_pos_iff.2 hne)
  have hgaps := gives_gaps (Eq.refl (skipGaps rest))
  obtain ⟨answer, hbracket⟩ := definite_mark "]" (skipGaps rest)
  rw [attributes_eq]
  cases answer with
  | none =>
    left
    exact Gives.rule ((gives_mark_char '[' _).bind (hmany.bind (hgaps.bind hbracket.bind_none))) _
  | some result =>
    right
    exact ⟨more, result.2, Gives.rule ((gives_mark_char '[' _).bind (hmany.bind (hgaps.bind
      (hbracket.bind (gives_pure (p :: more) _))))) _⟩

/-- A task of a list keeps its name and its first attribute, or it is read without any and
the bracket behind its name is left. -/
theorem gives_listedTask_leading {name gap gap₁ text next : List Char} {p : String × String}
    (hname : Identifier.isWord name = true) (hgap : Gap gap) (hgap₁ : Gap gap₁)
    (h : listedPair.Gives text (some (p, next))) (hne : text ≠ []) {cs : List Char}
    (hcs : skipGaps cs = skipGaps (gap ++ (name ++ (gap₁ ++ '[' :: text)))) :
    (∃ s, listedStatement.Gives cs (some (s, '[' :: text))) ∨
      ∃ s more rest, listedStatement.Gives cs (some (s, rest)) ∧
        s.item = .task (String.ofList name) (p :: more) := by
  rcases gives_attributes_leading h hne with hnone | ⟨more, rest, hsome⟩
  · obtain ⟨s, -, hgives, -⟩ := gives_listedTask_refused hname hgap hgap₁ hnone hcs
    exact .inl ⟨s, hgives⟩
  · have htask := gives_task_optional hname hgap₁ (Gives.optional hsome)
    obtain ⟨given, last, hseparator⟩ := (definite_mark ";").exists_optional (skipGaps rest)
    rw [hgap, skipGaps_word hname] at hcs
    exact .inr ⟨_, more, last, (gives_gaps hcs).bind (htask.bind
      ((gives_gaps (Eq.refl (skipGaps rest))).bind (hseparator.bind (gives_pure _ _)))), rfl⟩

/-! ## The statements of a text -/

/-- The statements that were read in front are the first of all, and the text goes on with
another or ends. -/
theorem exists_of_read {cs next : List Char} {front all : List Statement}
    (hgraph : graph.Gives (skipGaps cs) none) (h : Steps listedStatement (skipGaps cs) front next)
    (hlength : front.length ≤ (skipGaps cs).length) (hread : read cs = .ok all) :
    ∃ more, all = front ++ more ∧ (listedStatement.Gives next none → skipGaps next = []) := by
  obtain ⟨more, rest, ⟨fuel, hmore⟩, hmany⟩ := h.many definite_listedStatement hlength
  rw [← statements_eq] at hmany
  have hgaps := gives_gaps (Eq.refl (skipGaps rest))
  have hsource : ∀ {answer : Option (Unit × List Char)}, endOfInput.Gives (skipGaps rest) answer →
      source.Gives cs (answer.map fun result => (front ++ more, result.2)) := by
    intro answer hend
    refine Gives.rule ((gives_gaps rfl).bind ((Gives.orElse_none hgraph hmany).bind (hgaps.bind ?_))) _
    cases answer with
    | none => exact hend.bind_none
    | some result => exact hend.bind (gives_pure _ _)
  have hread' : ∃ rest', (source cs ⟨cs.length, []⟩).1 = some (all, rest') := by
    rw [read] at hread
    cases hresult : source cs ⟨cs.length, []⟩ with
    | mk answer f =>
      rw [hresult] at hread
      cases answer with
      | none => cases hread
      | some result =>
        cases hread
        exact ⟨result.2, rfl⟩
  obtain ⟨rest', hanswer⟩ := hread'
  cases hrest : skipGaps rest with
  | cons c more =>
    rw [hrest] at hsource
    have hnone := @hsource none (Gives.rule (fun f => rfl) _) ⟨cs.length, []⟩
    rw [hanswer] at hnone
    cases hnone
  | nil =>
    rw [hrest] at hsource
    have hsome := @hsource (some ((), [])) (Gives.rule (fun f => rfl) _) ⟨cs.length, []⟩
    rw [hanswer] at hsome
    cases hsome
    refine ⟨more, rfl, fun hstops => ?_⟩
    -- Where the next statement is refused, nothing more was read.
    have hlast := (repeating_none hstops fuel).eq hmore
    cases hlast
    exact hrest

/-- A text that is read keeps the statements in front, and the name and the first attribute
of the task behind them. -/
theorem exists_task_of_read {cs mid text next : List Char} {front all : List Statement}
    {name gap gap₁ : List Char} {p : String × String} (hgraph : graph.Gives (skipGaps cs) none)
    (h : Steps listedStatement (skipGaps cs) front mid)
    (hlength : front.length + mid.length ≤ (skipGaps cs).length)
    (hmid : skipGaps mid = skipGaps (gap ++ (name ++ (gap₁ ++ '[' :: text))))
    (hname : Identifier.isWord name = true) (hgap : Gap gap) (hgap₁ : Gap gap₁)
    (hpair : listedPair.Gives text (some (p, next))) (hne : text ≠ []) (hread : read cs = .ok all) :
    ∃ s more pairs, all = front ++ s :: more ∧ s.item = .task (String.ofList name) (p :: pairs) := by
  have hless : front.length + 1 ≤ (skipGaps cs).length := by
    have hle := length_skipGaps_le mid
    rw [hmid, hgap, skipGaps_word hname] at hle
    simp only [List.length_append, List.length_cons] at hle
    omega
  rcases gives_listedTask_leading hname hgap hgap₁ hpair hne hmid with
    ⟨s, hgives⟩ | ⟨s, pairs, rest, hgives, hitem⟩
  · -- The bracket is left, and no statement begins with it.
    have hskip : skipGaps ('[' :: text) = '[' :: text := skipGaps_cons text (by decide)
    obtain ⟨more, -, hend⟩ := exists_of_read hgraph (h.concat hgives) (by simpa using hless) hread
    rw [hskip] at hend
    cases hend (gives_listedStatement_bracket hskip)
  · obtain ⟨more, hall, -⟩ := exists_of_read hgraph (h.concat hgives) (by simpa using hless) hread
    exact ⟨s, more, pairs, by rw [hall, List.append_assoc, List.singleton_append], hitem⟩

end Reader
end Source
end JobPipeline
