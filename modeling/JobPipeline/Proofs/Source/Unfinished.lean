import JobPipeline.Proofs.Source.Statements
import JobPipeline.Source.Layout

/-
A text that ends inside a value is refused.

The tasks in front of the value are read as ever.  The attributes with the open
value are not, so their task is read without any, and its opening bracket is left:
no statement begins with a bracket, and neither is it the end of the text.
-/
namespace JobPipeline
namespace Source

/-- A text that ends before the bracket that closes it. -/
theorem anglesInner?_eq_none {cs : List Char} {depth : Nat} (h : anglesCloseFrom depth cs = true)
    {front : List Char} (hfront : front <+: cs) : anglesInner? depth front = none := by
  induction front generalizing depth cs with
  | nil => rfl
  | cons c front ih =>
    obtain ⟨rest, rfl⟩ := hfront
    have hprefix := List.prefix_append front rest
    rw [List.cons_append] at h
    by_cases hopen : c = '<'
    · subst hopen
      rw [anglesInner?_open, @ih _ (depth + 1) h hprefix]
      rfl
    · by_cases hclose : c = '>'
      · subst hclose
        cases depth with
        | zero => cases h
        | succ depth =>
          rw [anglesInner?_close, @ih _ depth h hprefix]
          rfl
      · rw [anglesCloseFrom_plain hopen hclose] at h
        rw [anglesInner?_plain hopen hclose, ih h hprefix]
        rfl

/-- Attributes, behind the opening bracket, that end inside a value. -/
inductive OpenAttributes : List Char → Prop
  | value {key gap gap₁ gap₂ inner : List Char} : Identifier.isWord key = true → Gap gap →
      Gap gap₁ → Gap gap₂ → anglesInner? 0 inner = none →
      OpenAttributes (gap ++ (key ++ (gap₁ ++ '=' :: (gap₂ ++ '<' :: inner))))
  | pair {key value written gap gap₁ gap₂ gap₃ sep text : List Char} :
      Identifier.isWord key = true → Gap gap → Gap gap₁ → Gap gap₂ → ValueText value written →
      Gap gap₃ → Separator [',', ';'] sep → Apart isBareChar (gap₃ ++ (sep ++ text)) →
      OpenAttributes text →
      OpenAttributes
        (gap ++ (key ++ (gap₁ ++ '=' :: (gap₂ ++ (written ++ (gap₃ ++ (sep ++ text)))))))

/-- Tasks, the last of which ends inside a value. -/
inductive OpenStatements : List Char → Prop
  | attributes {name gap gap₁ text : List Char} : Identifier.isWord name = true → Gap gap →
      Gap gap₁ → OpenAttributes text → OpenStatements (gap ++ (name ++ (gap₁ ++ '[' :: text)))
  | task {name gap gap₁ attributes gap₂ sep text : List Char} {pairs : List (String × String)} :
      Identifier.isWord name = true → Gap gap → Gap gap₁ → AttributesText pairs attributes →
      Gap gap₂ → Separator [';'] sep → OpenStatements text →
      OpenStatements (gap ++ (name ++ (gap₁ ++ '[' :: (attributes ++ (gap₂ ++ (sep ++ text))))))

theorem OpenAttributes.avoids {text : List Char} (h : OpenAttributes text) :
    Avoids [',', ';'] text := by
  cases h with
  | value hkey hgap => exact avoids_word hkey (by decide) hgap _
  | pair hkey hgap => exact avoids_word hkey (by decide) hgap _

theorem OpenStatements.avoids {text : List Char} (h : OpenStatements text) : Avoids [';'] text := by
  cases h with
  | attributes hname hgap => exact avoids_word hname (by decide) hgap _
  | task hname hgap => exact avoids_word hname (by decide) hgap _

namespace Reader

/-- An open value is no value of any form. -/
theorem gives_value_none {inner : List Char} (h : anglesInner? 0 inner = none) :
    (orElse quoted (orElse html bare)).Gives ('<' :: inner) none := by
  refine Gives.orElse_none (Gives.rule (fun f => rfl) _) ?_
  exact Gives.orElse_none (gives_html_none h) (Gives.rule (fun f => rfl) _)

theorem gives_pair_none {key gap gap' inner : List Char} (hkey : Identifier.isWord key = true)
    (hgap : Gap gap) (hgap' : Gap gap') (h : anglesInner? 0 inner = none) :
    pair.Gives (key ++ (gap ++ '=' :: (gap' ++ '<' :: inner))) none := by
  have hend : Apart Identifier.isRest (gap ++ '=' :: (gap' ++ '<' :: inner)) :=
    hgap.apart (by decide) fun c hc => by
      cases hc
      decide
  refine Gives.rule ((gives_identifier hkey hend).bind ?_) _
  refine (gives_gaps_append hgap (skipGaps_cons _ (by decide))).bind ?_
  refine (gives_mark_char '=' _).bind ?_
  refine (gives_gaps_append hgap' (skipGaps_cons _ (by decide))).bind ?_
  exact (gives_value_none h).bind_none

/-- The attributes in front of an open value are read, and its key is left. -/
theorem repeats_listedPair_open {text : List Char} (h : OpenAttributes text) {cs : List Char}
    (hcs : skipGaps cs = skipGaps text) :
    ∃ pairs last, Repeats listedPair cs pairs last ∧ (skipGaps last).head? ≠ some ']' := by
  induction h generalizing cs with
  | @value key gap gap₁ gap₂ inner hkey hgap hgap₁ hgap₂ hinner =>
    rw [hgap, skipGaps_word hkey] at hcs
    refine ⟨[], cs, .stop ?_, ?_⟩
    · exact (gives_gaps hcs).bind (gives_pair_none hkey hgap₁ hgap₂ hinner).bind_none
    · rw [hcs]
      cases key with
      | nil => cases hkey
      | cons c key =>
        rw [Identifier.isWord, Bool.and_eq_true] at hkey
        rintro heq
        rw [Option.some.inj heq] at hkey
        exact absurd hkey.1 (by decide)
  | pair hkey hgap hgap₁ hgap₂ hvalue hgap₃ hsep hapart htext ih =>
    obtain ⟨next, hnext, hless, hgives⟩ := gives_listedPair hkey hgap hgap₁ hgap₂ hvalue hgap₃ hsep
      (fun _ => hapart) htext.avoids hcs
    obtain ⟨pairs, last, hrepeats, hlast⟩ := ih hnext
    exact ⟨_ :: pairs, last, .step hgives hless hrepeats, hlast⟩

theorem gives_attributes_open {text : List Char} (h : OpenAttributes text) :
    attributes.Gives ('[' :: text) none := by
  obtain ⟨pairs, last, hrepeats, hlast⟩ := repeats_listedPair_open h rfl
  rw [attributes_eq]
  refine Gives.rule ((gives_mark_char '[' _).bind (hrepeats.many.bind ?_)) _
  exact (gives_gaps rfl).bind (gives_mark_char_none hlast).bind_none

/-- A task whose attributes are refused is read without them. -/
theorem gives_task_refused {name gap text : List Char} (hname : Identifier.isWord name = true)
    (hgap : Gap gap) (h : attributes.Gives ('[' :: text) none) :
    (orElse chain task).Gives (name ++ (gap ++ '[' :: text))
      (some (.task (String.ofList name) [] (name ++ (gap ++ '[' :: text)).length, '[' :: text)) :=
  gives_task_optional hname hgap (Gives.optional_none h)

theorem gives_listedStatement_bracket {cs text : List Char} (h : skipGaps cs = '[' :: text) :
    listedStatement.Gives cs none := by
  have hstart : Apart Identifier.isStart ('[' :: text) := fun c hc => by
    cases hc
    decide
  refine (gives_gaps h).bind (Gives.bind_none (Gives.orElse_none ?_ ?_))
  · exact Gives.rule ((gives_left _).bind (gives_identifier_none hstart).bind_none) _
  · exact Gives.rule ((gives_left _).bind (gives_identifier_none hstart).bind_none) _

/-- A task whose attributes are refused is read from a list, and their opening bracket is
left. -/
theorem gives_listedTask_refused {name gap gap₁ text : List Char} (hname : Identifier.isWord name = true)
    (hgap : Gap gap) (hgap₁ : Gap gap₁) (h : attributes.Gives ('[' :: text) none) {cs : List Char}
    (hcs : skipGaps cs = skipGaps (gap ++ (name ++ (gap₁ ++ '[' :: text)))) :
    ∃ s, ('[' :: text).length < cs.length ∧ listedStatement.Gives cs (some (s, '[' :: text)) ∧
      s.item = .task (String.ofList name) [] := by
  rw [hgap, skipGaps_word hname] at hcs
  have hskip : skipGaps ('[' :: text) = '[' :: text := skipGaps_cons text (by decide)
  have hsemicolon : (mark ";").Gives ('[' :: text) none :=
    gives_mark_char_none fun heq => absurd (Option.some.inj heq) (by decide)
  refine ⟨_, ?_, (gives_gaps hcs).bind ((gives_task_refused hname hgap₁ h).bind ((gives_gaps hskip).bind
    ((Gives.optional_none hsemicolon).bind (gives_pure _ _)))), rfl⟩
  have hle := length_skipGaps_le cs
  have hpos : 0 < name.length := by
    cases name with
    | nil => cases hname
    | cons c name => exact Nat.zero_lt_succ _
  rw [hcs] at hle
  simp only [List.length_append, List.length_cons] at hle ⊢
  omega

/-- The tasks of an unfinished text are read, and the opening bracket of the last is
left. -/
theorem repeats_listedStatement_open {text : List Char} (h : OpenStatements text) {cs : List Char}
    (hcs : skipGaps cs = skipGaps text) :
    ∃ all last rest, Repeats listedStatement cs all last ∧ skipGaps last = '[' :: rest := by
  induction h generalizing cs with
  | @attributes name gap gap₁ text hname hgap hgap₁ htext =>
    have hskip : skipGaps ('[' :: text) = '[' :: text := skipGaps_cons text (by decide)
    obtain ⟨s, hless, hgives, -⟩ := gives_listedTask_refused hname hgap hgap₁
      (gives_attributes_open htext) hcs
    exact ⟨[s], _, text, .step hgives hless (.stop (gives_listedStatement_bracket hskip)), hskip⟩
  | task hname hgap hgap₁ hattributes hgap₂ hsep htext ih =>
    obtain ⟨s, next, hnext, hless, hgives, -⟩ := gives_listedTask hname hgap hgap₁ hattributes hgap₂
      hsep htext.avoids hcs
    obtain ⟨all, last, rest, hrepeats, hlast⟩ := ih hnext
    exact ⟨s :: all, last, rest, .step hgives hless hrepeats, hlast⟩

/-- A text that ends inside a value is no pipeline. -/
theorem gives_source_open {text : List Char} (h : OpenStatements text) : source.Gives text none := by
  have hgraph : graph.Gives (skipGaps text) none := by
    cases h with
    | attributes hname hgap hgap₁ =>
      rw [hgap, skipGaps_word hname]
      exact gives_graph_none hname hgap₁ (.inl rfl)
    | task hname hgap hgap₁ =>
      rw [hgap, skipGaps_word hname]
      exact gives_graph_none hname hgap₁ (.inl rfl)
  have hsame : skipGaps (skipGaps text) = skipGaps text := skipGaps_of_stops h.avoids.1
  obtain ⟨all, last, rest, hrepeats, hlast⟩ := repeats_listedStatement_open h hsame
  have hmany := hrepeats.many
  rw [← statements_eq] at hmany
  refine Gives.rule ((gives_gaps rfl).bind ?_) _
  refine (Gives.orElse_none hgraph hmany).bind ((gives_gaps hlast).bind ?_)
  exact Gives.bind_none (Gives.rule (fun f => rfl) _)

end Reader
end Source

theorem TaskGraph.ofSource_open {text : List Char} (h : Source.OpenStatements text) :
    ∃ error, TaskGraph.ofSource (String.ofList text) = .error error := by
  have hread : ∃ error, Source.read text = .error error := by
    have hgives := Source.Reader.gives_source_open h ⟨text.length, []⟩
    rw [Source.read]
    cases hsource : Source.Reader.source text ⟨text.length, []⟩ with
    | mk answer f =>
      rw [hsource] at hgives
      subst hgives
      exact ⟨_, rfl⟩
  obtain ⟨error, hread⟩ := hread
  refine ⟨.parse error, ?_⟩
  rw [ofSource, Source.parse, String.toList_ofList, hread]

end JobPipeline
