import JobPipeline.Proofs.Source.Attributes

/-
Statements are read back from any text that lays them out.

`StatementsText` puts tasks and chains of arrows one after another, with any gaps
and separators between them.  A chain is tried before a task and a graph before
both, so beside what each reader gives there is what it refuses: a task is no
chain, and a name that is followed by an arrow or by attributes begins no graph,
even where the name begins with the word for one.
-/
namespace JobPipeline
namespace Source

/-! ## Statements -/

/-- A statement without the place where it stands. -/
inductive Item where
  | task (name : String) (attributes : List (String × String))
  | chain (names : List String)
deriving DecidableEq, Repr

def Statement.item : Statement → Item
  | .task name attributes _ => .task name attributes
  | .chain names _ => .chain names

/-- The ways to write the arrows of a chain, behind its first name. -/
inductive ArrowsText : List String → List Char → Prop
  | nil : ArrowsText [] []
  | arrow {name gap gap₁ text : List Char} {names : List String} : Identifier.isWord name = true →
      Gap gap → Gap gap₁ → ArrowsText names text →
      ArrowsText (String.ofList name :: names) (gap ++ '-' :: '>' :: (gap₁ ++ (name ++ text)))

/-- Attributes may stand behind a chain. -/
inductive ChainEnd : List Char → Prop
  | nothing : ChainEnd []
  | attributes {pairs : List (String × String)} {gap text : List Char} : Gap gap →
      AttributesText pairs text → ChainEnd (gap ++ '[' :: text)

/-- The ways to write statements. -/
inductive StatementsText : List Item → List Char → Prop
  | done {gap : List Char} : Gap gap → StatementsText [] gap
  | task {name gap gap₁ attributes gap₂ sep text : List Char} {pairs : List (String × String)}
      {items : List Item} : Identifier.isWord name = true → Gap gap → Gap gap₁ →
      AttributesText pairs attributes → Gap gap₂ → Separator [';'] sep → StatementsText items text →
      StatementsText (.task (String.ofList name) pairs :: items)
        (gap ++ (name ++ (gap₁ ++ '[' :: (attributes ++ (gap₂ ++ (sep ++ text))))))
  | chain {first gap arrows last gap₁ sep text : List Char} {second : String}
      {names : List String} {items : List Item} : Identifier.isWord first = true → Gap gap →
      ArrowsText (second :: names) arrows → ChainEnd last → Gap gap₁ → Separator [';'] sep →
      Apart Identifier.isRest (last ++ (gap₁ ++ (sep ++ text))) → StatementsText items text →
      StatementsText (.chain (String.ofList first :: second :: names) :: items)
        (gap ++ (first ++ (arrows ++ (last ++ (gap₁ ++ (sep ++ text))))))

namespace Reader

def arrow : Reader String := do
  gaps
  mark "->"
  gaps
  identifier

theorem chain_eq : chain = rule .edgeStatement (do
    let here ← left
    let first ← identifier
    let second ← arrow
    let others ← many arrow
    gaps
    let _ ← optional attributes
    return .chain (first :: second :: others) here) := rfl

/-- One statement of a list, with the gaps around it and the semicolon behind it. -/
def listedStatement : Reader Statement := do
  gaps
  let s ← orElse chain task
  gaps
  let _ ← optional (mark ";")
  return s

theorem statements_eq : statements = many listedStatement := rfl

theorem gives_arrow {name gap gap' rest : List Char} (hname : Identifier.isWord name = true)
    (hgap : Gap gap) (hgap' : Gap gap') (hrest : Apart Identifier.isRest rest) :
    arrow.Gives (gap ++ '-' :: '>' :: (gap' ++ (name ++ rest)))
      (some (String.ofList name, rest)) := by
  refine (gives_gaps_append hgap (skipGaps_cons _ (by decide))).bind ?_
  refine (gives_mark "->" _).bind ?_
  exact (gives_gaps_append hgap' (skipGaps_word hname _)).bind (gives_identifier hname hrest)

theorem gives_arrow_none {cs : List Char} (h : Avoids ['-'] cs) : arrow.Gives cs none := by
  refine (gives_gaps rfl).bind (Gives.bind_none (gives_mark_none ?_))
  have hhead : (skipGaps cs).head? ≠ some '-' := apart_head (by decide) h.2
  show Text.afterMark? ['-', '>'] (skipGaps cs) = none
  cases hcs : skipGaps cs with
  | nil => rfl
  | cons c rest =>
    have hne : '-' ≠ c := fun heq => hhead (by rw [hcs, heq]; rfl)
    rw [Text.afterMark?, if_neg hne]

theorem apart_arrows {names : List String} {text rest : List Char} (h : ArrowsText names text)
    (hrest : Apart Identifier.isRest rest) : Apart Identifier.isRest (text ++ rest) := by
  cases h with
  | nil => exact hrest
  | arrow _ hgap =>
    rw [List.append_assoc]
    refine hgap.apart (by decide) fun c hc => ?_
    cases hc
    decide

theorem repeats_arrow {names : List String} {text : List Char} (h : ArrowsText names text)
    {rest : List Char} (hrest : Apart Identifier.isRest rest) (hend : Avoids ['-'] rest) :
    Repeats arrow (text ++ rest) names rest := by
  induction h with
  | nil => exact .stop (gives_arrow_none hend)
  | @arrow name gap gap₁ text names hname hgap hgap₁ htext ih =>
    have hgives := gives_arrow hname hgap hgap₁ (apart_arrows htext hrest)
    simp only [List.append_assoc, List.cons_append]
    refine .step hgives ?_ ih
    simp only [List.length_append, List.length_cons]
    omega

theorem gives_attributes_none {cs : List Char} (h : cs.head? ≠ some '[') :
    attributes.Gives cs none :=
  Gives.rule (Gives.bind_none (gives_mark_char_none h)) _

/-- The attributes behind a chain are taken if they are there. -/
theorem gives_chainEnd {last : List Char} (h : ChainEnd last) {rest : List Char}
    (hrest : Avoids ['['] rest) {α : Type} (a : α) :
    ∃ next, skipGaps next = skipGaps rest ∧ next.length ≤ (last ++ rest).length ∧
      (do
        gaps
        let _ ← optional attributes
        return a : Reader α).Gives (last ++ rest) (some (a, next)) := by
  cases h with
  | nothing =>
    refine ⟨skipGaps rest, skipGaps_of_stops hrest.1, length_skipGaps_le rest, ?_⟩
    refine (gives_gaps rfl).bind ?_
    exact (Gives.optional_none (gives_attributes_none (apart_head (by decide) hrest.2))).bind
      (gives_pure a _)
  | @attributes pairs gap text hgap htext =>
    refine ⟨rest, rfl, by simp only [List.length_append]; omega, ?_⟩
    rw [List.append_assoc, List.cons_append]
    refine (gives_gaps_append hgap (skipGaps_cons _ (by decide))).bind ?_
    exact (Gives.optional (gives_attributes htext rest)).bind (gives_pure a _)

theorem gives_chain {first arrows last rest : List Char} {second : String} {names : List String}
    (hfirst : Identifier.isWord first = true) (harrows : ArrowsText (second :: names) arrows)
    (hlast : ChainEnd last) (happart : Apart Identifier.isRest (last ++ rest))
    (hrest : Avoids ['-', '['] rest) :
    ∃ next, skipGaps next = skipGaps rest ∧ next.length ≤ (last ++ rest).length ∧
      chain.Gives (first ++ (arrows ++ (last ++ rest)))
        (some (.chain (String.ofList first :: second :: names)
          (first ++ (arrows ++ (last ++ rest))).length, next)) := by
  have hdash : Avoids ['-'] (last ++ rest) := by
    cases hlast with
    | nothing =>
      refine ⟨hrest.1, fun c hc => ?_⟩
      have hnot : List.contains ['-', '['] c = false := hrest.2 c hc
      simp only [List.contains_cons, Bool.or_eq_false_iff] at hnot
      simp only [List.contains_cons, hnot.1, Bool.false_or, List.contains_nil]
    | attributes hgap =>
      rw [List.append_assoc]
      exact avoids_of_class (p := (· == '[')) (by decide) (by decide) hgap rfl _
  have hbracket : Avoids ['['] rest := by
    refine ⟨hrest.1, fun c hc => ?_⟩
    have hnot : List.contains ['-', '['] c = false := hrest.2 c hc
    simp only [List.contains_cons, Bool.or_eq_false_iff] at hnot
    simp only [List.contains_cons, hnot.2.1, Bool.false_or, List.contains_nil]
  cases harrows with
  | @arrow name gap gap₁ text _ hname hgap hgap₁ htext =>
    obtain ⟨next, hnext, hlength, hgives⟩ := gives_chainEnd hlast hbracket
      (Statement.chain (String.ofList first :: String.ofList name :: names)
        (first ++ (gap ++ '-' :: '>' :: (gap₁ ++ (name ++ (text ++ (last ++ rest)))))).length)
    refine ⟨next, hnext, hlength, ?_⟩
    have hassoc : gap ++ '-' :: '>' :: (gap₁ ++ (name ++ text)) ++ (last ++ rest) =
        gap ++ '-' :: '>' :: (gap₁ ++ (name ++ (text ++ (last ++ rest)))) := by
      simp only [List.append_assoc, List.cons_append]
    rw [hassoc, chain_eq]
    refine Gives.rule ((gives_left _).bind ?_) _
    have hafter : Apart Identifier.isRest
        (gap ++ '-' :: '>' :: (gap₁ ++ (name ++ (text ++ (last ++ rest))))) :=
      hgap.apart (by decide) fun c hc => by
        cases hc
        decide
    refine (gives_identifier hfirst hafter).bind ?_
    refine (gives_arrow hname hgap hgap₁ (apart_arrows htext happart)).bind ?_
    exact (repeats_arrow htext happart hdash).many.bind hgives

/-- A task is no chain, and is read with the attributes that are read behind its name. -/
theorem gives_task_optional {name gap text rest : List Char} {given : Option (List (String × String))}
    (hname : Identifier.isWord name = true) (hgap : Gap gap)
    (h : (optional attributes).Gives ('[' :: text) (some (given, rest))) :
    (orElse chain task).Gives (name ++ (gap ++ '[' :: text))
      (some (.task (String.ofList name) (given.getD []) (name ++ (gap ++ '[' :: text)).length, rest)) := by
  have hafter : Apart Identifier.isRest (gap ++ '[' :: text) :=
    hgap.apart (by decide) fun c hc => by
      cases hc
      decide
  have hdash : Avoids ['-'] (gap ++ '[' :: text) :=
    avoids_of_class (p := (· == '[')) (by decide) (by decide) hgap rfl _
  refine Gives.orElse_none ?_ ?_
  · rw [chain_eq]
    refine Gives.rule ((gives_left _).bind ?_) _
    exact (gives_identifier hname hafter).bind (gives_arrow_none hdash).bind_none
  · refine Gives.rule ((gives_left _).bind ?_) _
    refine (gives_identifier hname hafter).bind ?_
    refine (gives_gaps_append hgap (skipGaps_cons _ (by decide))).bind ?_
    exact h.bind (gives_pure _ _)

theorem gives_task {name gap attributes : List Char} {pairs : List (String × String)}
    (hname : Identifier.isWord name = true) (hgap : Gap gap)
    (hattributes : AttributesText pairs attributes) (rest : List Char) :
    (orElse chain task).Gives (name ++ (gap ++ '[' :: (attributes ++ rest)))
      (some (.task (String.ofList name) pairs
        (name ++ (gap ++ '[' :: (attributes ++ rest))).length, rest)) :=
  gives_task_optional hname hgap (Gives.optional (gives_attributes hattributes rest))

end Reader

/-- What may stand behind a list of statements, up to gaps. -/
def Closes (rest : List Char) : Prop := skipGaps rest = [] ∨ ∃ more, skipGaps rest = '\x7d' :: more

theorem Closes.stops {rest : List Char} (h : Closes rest) : Stops (skipGaps rest) := by
  rcases h with hend | ⟨more, hbrace⟩
  · rw [hend]
    exact trivial
  · rw [hbrace]
    exact stops_cons more (by decide)

theorem Closes.apart_skipGaps {rest : List Char} (h : Closes rest) {p : Char → Bool}
    (hp : p '\x7d' = false) : Apart p (skipGaps rest) := by
  intro c hc
  rcases h with hend | ⟨more, hbrace⟩
  · rw [hend] at hc
    cases hc
  · rw [hbrace] at hc
    cases hc
    exact hp

theorem Closes.apart {rest : List Char} (h : Closes rest) {p : Char → Bool} (hgap : NoGap p)
    (hp : p '\x7d' = false) : Apart p rest := by
  cases rest with
  | nil => exact fun c hc => by cases hc
  | cons c rest =>
    intro d hd
    cases hd
    rw [Bool.eq_false_iff]
    intro hc
    have hfirst := h.apart_skipGaps hp
    rw [skipGaps_of_stops (stops_of_class hgap hc rest)] at hfirst
    have := hfirst c rfl
    rw [hc] at this
    cases this

/-- A list of statements goes on with a name or with its end. -/
theorem StatementsText.avoids {items : List Item} {text rest : List Char}
    (h : StatementsText items text) (hrest : Closes rest) :
    Avoids ['-', '[', ';'] (text ++ rest) := by
  cases h with
  | done hgap =>
    rw [Avoids, hgap]
    exact ⟨hrest.stops, hrest.apart_skipGaps (by decide)⟩
  | task hname hgap =>
    rw [List.append_assoc, List.append_assoc]
    exact avoids_word hname (by decide) hgap _
  | chain hname hgap =>
    rw [List.append_assoc, List.append_assoc]
    exact avoids_word hname (by decide) hgap _

theorem Avoids.mono {marks fewer : List Char} (hsub : fewer.all (marks.contains ·) = true) {rest : List Char}
    (h : Avoids marks rest) : Avoids fewer rest := by
  refine ⟨h.1, fun c hc => ?_⟩
  have hnot : marks.contains c = false := h.2 c hc
  rw [Bool.eq_false_iff] at hnot ⊢
  exact fun hmem => hnot (List.all_eq_true.1 hsub c (List.contains_iff_mem.1 hmem))

theorem Avoids.separated {marks sep gap rest : List Char} (hgap : Gap gap)
    (hsep : Separator [';'] sep) (hmarks : marks.any (· == ';') = false)
    (hrest : Avoids marks rest) : Avoids marks (gap ++ (sep ++ rest)) := by
  rcases hsep with rfl | ⟨c, hc, rfl⟩
  · rw [List.nil_append, Avoids, hgap]
    exact hrest
  · rw [List.mem_singleton.1 hc]
    exact avoids_of_class (p := (· == ';')) (by decide) hmarks hgap rfl rest

/-- A line end may stand behind statements. -/
theorem StatementsText.endLine {items : List Item} {text : List Char}
    (h : StatementsText items text) : StatementsText items (text ++ ['\n']) := by
  have hline : Gap ['\n'] := gap_cons (by decide) gap_nil
  induction h with
  | done hgap =>
    refine .done fun rest => ?_
    rw [List.append_assoc, hgap, hline]
  | task hname hgap hgap₁ hattributes hgap₂ hsep _ ih =>
    have htask := StatementsText.task hname hgap hgap₁ hattributes hgap₂ hsep ih
    simpa only [List.append_assoc, List.cons_append] using htask
  | @chain first gap arrows last gap₁ sep text second names items hfirst hgap harrows hlast hgap₁ hsep
      hapart _ ih =>
    have hapart' : Apart Identifier.isRest (last ++ (gap₁ ++ (sep ++ (text ++ ['\n'])))) := by
      rw [← List.append_assoc sep, ← List.append_assoc gap₁, ← List.append_assoc last]
      cases hall : last ++ (gap₁ ++ (sep ++ text)) with
      | nil =>
        intro c hc
        cases hc
        decide
      | cons c more =>
        rw [hall] at hapart
        exact hapart
    have hchain := StatementsText.chain hfirst hgap harrows hlast hgap₁ hsep hapart' ih
    simpa only [List.append_assoc, List.cons_append] using hchain

namespace Reader

/-- One task is read from a list, with what stands around it. -/
theorem gives_listedTask {name gap gap₁ attributes gap₂ sep rest : List Char}
    {pairs : List (String × String)} (hname : Identifier.isWord name = true) (hgap : Gap gap)
    (hgap₁ : Gap gap₁) (hattributes : AttributesText pairs attributes) (hgap₂ : Gap gap₂)
    (hsep : Separator [';'] sep) (hrest : Avoids [';'] rest) {cs : List Char}
    (hcs : skipGaps cs = skipGaps
      (gap ++ (name ++ (gap₁ ++ '[' :: (attributes ++ (gap₂ ++ (sep ++ rest))))))) :
    ∃ s next, skipGaps next = skipGaps rest ∧ next.length < cs.length ∧
      listedStatement.Gives cs (some (s, next)) ∧ s.item = .task (String.ofList name) pairs := by
  rw [hgap, skipGaps_word hname] at hcs
  have htask := gives_task hname hgap₁ hattributes (gap₂ ++ (sep ++ rest))
  obtain ⟨next, hnext, hlength, hgives⟩ := marks_semicolon.gives_separator hgap₂ hsep hrest rfl _
  refine ⟨_, next, hnext, ?_, (gives_gaps hcs).bind (htask.bind hgives), rfl⟩
  have hle := length_skipGaps_le cs
  rw [hcs] at hle
  simp only [List.length_append, List.length_cons] at hle hlength
  omega

/-- The statements are read one by one, up to the end. -/
theorem repeats_listedStatement {items : List Item} {text : List Char}
    (h : StatementsText items text) {rest : List Char} (hrest : Closes rest) {cs : List Char}
    (hcs : skipGaps cs = skipGaps (text ++ rest)) :
    ∃ all last, Repeats listedStatement cs all last ∧ skipGaps last = skipGaps rest ∧
      all.map Statement.item = items := by
  induction h generalizing cs with
  | done hgap =>
    rw [hgap] at hcs
    refine ⟨[], cs, .stop ?_, hcs, rfl⟩
    refine (gives_gaps hcs).bind (Gives.bind_none (Gives.orElse_none ?_ ?_))
    · refine Gives.rule ((gives_left _).bind (Gives.bind_none ?_)) _
      exact gives_identifier_none (hrest.apart_skipGaps (by decide))
    · refine Gives.rule ((gives_left _).bind (Gives.bind_none ?_)) _
      exact gives_identifier_none (hrest.apart_skipGaps (by decide))
  | @task name gap gap₁ attributes gap₂ sep text pairs items hname hgap hgap₁ hattributes hgap₂ hsep
      htext ih =>
    simp only [List.append_assoc, List.cons_append] at hcs
    obtain ⟨s, next, hnext, hless, hgives, hitem⟩ := gives_listedTask hname hgap hgap₁ hattributes
      hgap₂ hsep ((htext.avoids hrest).mono (by decide)) hcs
    obtain ⟨all, last, hrepeats, hlast, hitems⟩ := ih hnext
    exact ⟨s :: all, last, .step hgives hless hrepeats, hlast, by rw [List.map_cons, hitem, hitems]⟩
  | @chain first gap arrows chainEnd gap₁ sep text second names items hfirst hgap harrows hend hgap₁
      hsep hapart htext ih =>
    have hskip : skipGaps cs =
        first ++ (arrows ++ (chainEnd ++ (gap₁ ++ (sep ++ (text ++ rest))))) := by
      rw [hcs]
      simp only [List.append_assoc]
      rw [hgap, skipGaps_word hfirst]
    have hapart' : Apart Identifier.isRest (chainEnd ++ (gap₁ ++ (sep ++ (text ++ rest)))) := by
      have hclose : Apart Identifier.isRest rest := hrest.apart (by decide) (by decide)
      cases hlist : chainEnd ++ (gap₁ ++ (sep ++ text)) with
      | nil =>
        simp only [List.append_eq_nil_iff] at hlist
        obtain ⟨h1, h2, h3, h4⟩ := hlist
        rw [h1, h2, h3, h4]
        exact hclose
      | cons c more =>
        have := hapart.append (by rw [hlist]; exact List.cons_ne_nil c more) rest
        simpa only [List.append_assoc] using this
    have hmarks := htext.avoids hrest
    have hchain := gives_chain hfirst harrows hend hapart'
      (Avoids.separated hgap₁ hsep (by decide) (hmarks.mono (by decide)))
    obtain ⟨middle, hmiddle, hless, hgives⟩ := hchain
    obtain ⟨next, hnext, hlength, hgives'⟩ := marks_semicolon.gives_separator hgap₁ hsep
      (hmarks.mono (by decide)) hmiddle _
    obtain ⟨all, last, hrepeats, hlast, hitems⟩ := ih hnext
    refine ⟨_ :: all, last,
      .step ((gives_gaps hskip).bind (hgives.orElse.bind hgives')) ?_ hrepeats, hlast, ?_⟩
    · have hle := length_skipGaps_le cs
      rw [hskip] at hle
      have hpos : 0 < first.length := by
        cases first with
        | nil => cases hfirst
        | cons c first => exact Nat.zero_lt_succ _
      simp only [List.length_append] at hle hless hlength
      omega
    · rw [List.map_cons, hitems]
      rfl

/-! ## The whole text -/

theorem isRest_of_toLower {c : Char} (h : Identifier.isRest c.toLower = true) :
    Identifier.isRest c = true := by
  by_cases hupper : c.isUpper = true
  · have halpha : c.isAlpha = true := Bool.or_eq_true_iff.2 (.inl hupper)
    rw [Identifier.isRest, Char.isAlphanum, halpha]
    rfl
  · have hsame : c.toLower = c := by
      delta Char.toLower
      exact dif_neg fun hrange => hupper (decide_eq_true hrange)
    rwa [hsame] at h

/-- The word that opens a graph can only be the front of the name at the start. -/
theorem afterWord?_name {word : String} (hword : word.toList.all Identifier.isRest = true)
    {name rest more : List Char} (hrest : Apart Identifier.isRest rest)
    (h : afterWord? word (name ++ rest) = some more) : more = name.drop word.length ++ rest := by
  rw [afterWord?] at h
  split at h
  · next hlower =>
    cases h
    have hlength : ((name ++ rest).take word.length).length = word.length := by
      have := congrArg List.length hlower
      rwa [Text.lowerAscii, List.length_map, String.length_toList] at this
    have hall : ∀ c ∈ (name ++ rest).take word.length, Identifier.isRest c = true := by
      intro c hc
      have hmem : c.toLower ∈ word.toList := by
        rw [← hlower]
        exact List.mem_map_of_mem hc
      exact isRest_of_toLower (List.all_eq_true.1 hword _ hmem)
    have hle : word.length ≤ name.length := by
      rcases Nat.lt_or_ge name.length word.length with hlt | hle
      · -- Otherwise the first character behind the name would belong to the word.
        exfalso
        cases rest with
        | nil =>
          rw [List.append_nil, List.length_take] at hlength
          omega
        | cons c rest =>
          have hmem : c ∈ (name ++ c :: rest).take word.length := by
            rw [List.take_append, List.take_of_length_le (Nat.le_of_lt hlt)]
            obtain ⟨k, hk⟩ := Nat.exists_eq_add_of_lt hlt
            rw [show word.length - name.length = k + 1 by omega, List.take_succ_cons]
            exact List.mem_append_right _ List.mem_cons_self
          have hc := hrest c rfl
          rw [hall c hmem] at hc
          cases hc
      · exact hle
    rw [List.drop_append_of_le_length hle]
  · cases h

/-- A name that is followed by an arrow or by attributes begins no graph. -/
theorem gives_graph_none {name gap rest : List Char} {c : Char}
    (hname : Identifier.isWord name = true) (hgap : Gap gap) (hc : c = '[' ∨ c = '-') :
    graph.Gives (name ++ (gap ++ c :: rest)) none := by
  have hstops : isGap c = false ∧ c ≠ '#' ∧ c ≠ '/' := by
    rcases hc with rfl | rfl <;> decide
  have hstart : Apart Identifier.isStart (c :: rest) := fun d hd => by
    cases hd
    rcases hc with rfl | rfl <;> decide
  have hbrace : (c :: rest).head? ≠ some '\x7b' := fun heq => by
    have := Option.some.inj heq
    rcases hc with rfl | rfl <;> exact absurd this (by decide)
  have hskip : skipGaps (gap ++ c :: rest) = c :: rest := (hgap _).trans (skipGaps_cons rest hstops)
  have happart : Apart Identifier.isRest (gap ++ c :: rest) :=
    hgap.apart (by decide) fun d hd => by
      cases hd
      rcases hc with rfl | rfl <;> decide
  have hbegin := gives_scanning
    (fun cs => (afterWord? "digraph" cs).map fun rest => ((), rest)) (name ++ (gap ++ c :: rest))
  cases hword : afterWord? "digraph" (name ++ (gap ++ c :: rest)) with
  | none =>
    rw [hword] at hbegin
    exact hbegin.bind_none
  | some more =>
    rw [hword] at hbegin
    refine hbegin.bind ?_
    rw [afterWord?_name (by decide) happart hword]
    cases htail : name.drop "digraph".length with
    | nil =>
      refine (gives_gaps hskip).bind ?_
      refine (Gives.optional_none (gives_identifier_none hstart)).bind ?_
      refine (gives_gaps (skipGaps_cons rest hstops)).bind ?_
      exact (gives_mark_char_none hbrace).bind_none
    | cons d tail =>
      have hrest : ∀ e ∈ d :: tail, Identifier.isRest e = true := by
        intro e he
        cases name with
        | nil => cases hname
        | cons first name =>
          rw [Identifier.isWord, Bool.and_eq_true] at hname
          have hmem : e ∈ name := by
            have : e ∈ name.drop ("digraph".length - 1) := by
              rw [← htail] at he
              exact he
            exact List.mem_of_mem_drop this
          exact List.all_eq_true.1 hname.2 e hmem
      have hd : Identifier.isRest d = true := hrest d List.mem_cons_self
      have hself : skipGaps (d :: tail ++ (gap ++ c :: rest)) = d :: tail ++ (gap ++ c :: rest) :=
        skipGaps_of_stops (stops_of_class (p := Identifier.isRest) (by decide) hd _)
      refine (gives_gaps hself).bind ?_
      cases hletter : Identifier.isStart d with
      | true =>
        have hword : Identifier.isWord (d :: tail) = true := by
          rw [Identifier.isWord, hletter, Bool.true_and, List.all_eq_true]
          exact fun e he => hrest e (List.mem_cons_of_mem d he)
        refine (Gives.optional (gives_identifier hword happart)).bind ?_
        exact (gives_gaps hskip).bind (gives_mark_char_none hbrace).bind_none
      | false =>
        have hnone : Apart Identifier.isStart (d :: tail ++ (gap ++ c :: rest)) := fun e he => by
          cases he
          exact hletter
        refine (Gives.optional_none (gives_identifier_none hnone)).bind ?_
        refine (gives_gaps hself).bind (gives_mark_char_none fun heq => ?_).bind_none
        rw [Option.some.inj heq] at hd
        exact absurd hd (by decide)

/-- The statements of a text are read back from any text that lays them out, with
anything behind them that is no more than a gap. -/
theorem gives_source {items : List Item} {text rest : List Char} (h : StatementsText items text)
    (hrest : skipGaps rest = []) :
    ∃ all, source.Gives (text ++ rest) (some (all, [])) ∧ all.map Statement.item = items := by
  have hclose : Closes rest := .inl hrest
  have hgraph : graph.Gives (skipGaps (text ++ rest)) none := by
    cases h with
    | done hgap =>
      rw [hgap, hrest]
      exact Gives.bind_none (fun f => rfl)
    | task hname hgap hgap₁ =>
      simp only [List.append_assoc, List.cons_append]
      rw [hgap, skipGaps_word hname]
      exact gives_graph_none hname hgap₁ (.inl rfl)
    | chain hname hgap harrows =>
      simp only [List.append_assoc]
      rw [hgap, skipGaps_word hname]
      cases harrows with
      | arrow _ hgap₁ =>
        rw [List.append_assoc, List.cons_append]
        exact gives_graph_none hname hgap₁ (.inr rfl)
  have hsame : skipGaps (skipGaps (text ++ rest)) = skipGaps (text ++ rest) :=
    skipGaps_of_stops (h.avoids hclose).1
  obtain ⟨all, last, hrepeats, hlast, hitems⟩ := repeats_listedStatement h hclose hsame
  rw [hrest] at hlast
  have hmany := hrepeats.many
  rw [← statements_eq] at hmany
  refine ⟨all, Gives.rule ((gives_gaps rfl).bind ?_) _, hitems⟩
  refine (Gives.orElse_none hgraph hmany).bind ((gives_gaps hlast).bind ?_)
  exact (Gives.rule (fun f => rfl) _ : endOfInput.Gives [] (some ((), []))).bind (gives_pure _ _)

end Reader
end Source
end JobPipeline
