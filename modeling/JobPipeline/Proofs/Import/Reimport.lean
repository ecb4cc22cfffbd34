import JobPipeline.Proofs.Document.SecondWriting
import JobPipeline.Proofs.Import.Reread

/-
Reading back the spec text of a job, and writing it again.

The text of a valid job comes back as the same text exactly where two things hold.
No list of its tasks has three quotes in it, since these would end the pipeline text
inside of a value, and its value without quotes is a number in the form TOML writes.
The rules for fields ask for neither, so a valid job need not be read back.
-/
namespace JobPipeline

open Toml (Setting)
open Import (tripleQuote openingLine)
open Document (ended)

/-! ## What an import is made of -/

namespace Job

theorem ofSpec_eq {text : String} {rest body : List Char} {table : Import.Table} {type : JobType}
    {config : JobConfig} {warnings : List String} {graph : TaskGraph}
    (hsplit : Import.split text.toList = (rest, some body))
    (htable : Toml.read? (String.ofList rest) = some table)
    (htype : Import.typeOf table = .ok type)
    (hconfig : Import.readConfig table type = (config, warnings))
    (hgraph : TaskGraph.ofSource (String.ofList body) = .ok graph) :
    Job.ofSpec text = .ok ⟨⟨config, graph⟩, warnings⟩ := by
  rw [ofSpec, hsplit]
  dsimp only
  rw [htable]
  dsimp only
  rw [htype]
  dsimp only
  rw [hconfig]
  dsimp only
  rw [hgraph]

theorem of_ofSpec {text : String} {body : List Char} {imported : ImportedJob}
    (hbody : (Import.split text.toList).2 = some body) (h : Job.ofSpec text = .ok imported) :
    ∃ table type, Toml.read? (String.ofList (Import.split text.toList).1) = some table ∧
      Import.typeOf table = .ok type ∧ imported.job.config = (Import.readConfig table type).1 ∧
      TaskGraph.ofSource (String.ofList body) = .ok imported.job.graph := by
  rw [ofSpec] at h
  dsimp only at h
  rw [hbody] at h
  split at h
  · cases h
  · next table htable =>
    split at h
    · cases h
    · next type htype =>
      dsimp only at h
      split at h
      · cases h
      · next graph hgraph =>
        cases h
        exact ⟨table, type, htable, htype, rfl, hgraph⟩

end Job

namespace JobConfig

variable {config : JobConfig}

theorem exists_settings (config : JobConfig) : ∃ first rest, config.settings = first :: rest :=
  ⟨_, _, rfl⟩

theorem readable_settingsFor {layouts : List JobFieldLayout}
    (hmem : ∀ layout ∈ layouts, layout ∈ config.type.fields)
    (h : ∀ layout ∈ layouts, layout.style = .bare →
      IsTomlNumber (Text.trimmed (config.raw layout.key)).toList) :
    ∀ s ∈ config.settingsFor layouts, s.Readable := by
  intro s hs
  rcases mem_settingsFor hs with hs | ⟨layout, hlayout, hs⟩
  · exact readable_commonSettings config s hs
  · have hkey := JobType.isBareKey_of_field (hmem layout hlayout)
    exact JobFieldLayout.readable_setting? hkey hs (h layout hlayout)

theorem readable_settings (h : ∀ layout ∈ config.type.fields, layout.style = .bare →
      IsTomlNumber (Text.trimmed (config.raw layout.key)).toList) :
    ∀ s ∈ config.settings, s.Readable := by
  rw [settings_eq]
  exact readable_settingsFor (fun _ hlayout => hlayout) h

/-- The preamble is read as its table. -/
theorem read?_settings (h : ∀ s ∈ config.settings, s.Readable) :
    Toml.read? (String.ofList (config.settings.flatMap Setting.line ++ ['\n'])) =
      some config.table := by
  have hkeys := config.nodup_settings
  rw [table]
  obtain ⟨first, rest, hcons⟩ := config.exists_settings
  rw [hcons] at h hkeys ⊢
  exact Toml.read?_settings h hkeys

end JobConfig

/-- The lists of a valid task can stand between angle brackets. -/
theorem Node.anglesBalanced_of_isValid {n : Node} (h : n.isValid = true) : n.AnglesBalanced := by
  intro layout hlayout harray
  rw [isValid, fieldErrors, TaskKind.fieldErrors, List.isEmpty_iff, List.flatMap_eq_nil_iff] at h
  have herrors := h layout hlayout
  rw [FieldLayout.errors_eq, List.append_eq_nil_iff, harray, Bool.true_and] at herrors
  have hangles := herrors.2
  split at hangles
  · cases hangles
  · next hnot => simpa using hnot

namespace Job

/-! ## Reading back -/

/-- An import of the spec text of a job gives the job back, as far as the text tells. -/
structure Returns (job : Job) (imported : ImportedJob) : Prop where
  warnings : imported.warnings = []
  type : imported.job.config.type = job.config.type
  gasLimit : imported.job.config.gasLimit = job.config.gasLimit
  forwardingAllowed : imported.job.config.forwardingAllowed = job.config.forwardingAllowed
  name : ∀ s, s ≠ "" → job.config.name = some s → imported.job.config.name = some s
  externalId : ∀ s, s ≠ "" → job.config.externalId = some s →
    imported.job.config.externalId = some s
  maxTaskDuration : ∀ s, s ≠ "" → job.config.maxTaskDuration = some s →
    imported.job.config.maxTaskDuration = some s
  text : imported.job.compile.text = job.compile.text

/-- The spec text of the job can be imported, and nothing is lost. -/
def Reimports (job : Job) : Prop :=
  ∃ imported, Job.ofSpec job.compile.text = .ok imported ∧ job.Returns imported

/-- What a valid job has to keep to beside its rules. -/
structure Portable (job : Job) : Prop where
  /-- The pipeline text does not contain the mark that ends it. -/
  body : ¬tripleQuote <:+: job.graph.source.toList
  /-- A value that is written without quotes is a number as TOML writes it. -/
  numbers : ∀ layout ∈ job.config.type.fields, layout.style = .bare →
    ∃ n, n < twoTo 63 ∧ Text.trimmed (job.config.raw layout.key) = toString n

variable {job : Job}

theorem shown_of_ne {s : String} (h : s ≠ "") : JobConfig.shown (some s) = some s := by
  rw [JobConfig.shown, Option.filter, if_pos (decide_eq_true h)]

/-- A configuration that was read back writes the same texts and flags. -/
theorem returns_reread {graph : TaskGraph}
    (htext : (⟨job.config.reread, graph⟩ : Job).compile.text = job.compile.text) :
    job.Returns ⟨⟨job.config.reread, graph⟩, []⟩ := by
  have heq := JobConfig.afterAll_eq job.config.readCommon job.config.rereadFields
  have hshown : ∀ (o : Option String) (s : String), s ≠ "" → o = some s →
      JobConfig.shown o = some s := by
    rintro o s hs rfl
    exact shown_of_ne hs
  constructor
  · rfl
  · exact job.config.type_reread
  · show job.config.reread.gasLimit = _
    rw [JobConfig.reread, heq]
    rfl
  · show job.config.reread.forwardingAllowed = _
    rw [JobConfig.reread, heq]
    rfl
  · show ∀ s, s ≠ "" → _ → job.config.reread.name = some s
    rw [JobConfig.reread, heq]
    exact hshown _
  · show ∀ s, s ≠ "" → _ → job.config.reread.externalId = some s
    rw [JobConfig.reread, heq]
    exact hshown _
  · show ∀ s, s ≠ "" → _ → job.config.reread.maxTaskDuration = some s
    rw [JobConfig.reread, heq]
    exact hshown _
  · exact htext

theorem anglesBalanced_of_valid (hnodes : ∀ n ∈ job.graph.nodes, n.isValid = true) :
    ∀ n ∈ job.graph.written, n.AnglesBalanced := fun n hn =>
  Node.anglesBalanced_of_isValid (hnodes n (List.mem_filter.1 hn).1)

theorem reimports_of_portable (hgraph : job.graph.Built) (hconfig : job.config.Configured)
    (hvalid : job.config.isValid = true) (hnodes : ∀ n ∈ job.graph.nodes, n.isValid = true)
    (h : job.Portable) : job.Reimports := by
  have hnone : NoTriple (ended job.graph.bodyLines) :=
    (TaskGraph.noTriple_ended_iff job.graph).2 ((noTriple_iff _).2 h.body)
  have hnumbers : ∀ layout ∈ job.config.type.fields, layout.style = .bare →
      IsTomlNumber (Text.trimmed (job.config.raw layout.key)).toList := by
    intro layout hlayout hstyle
    obtain ⟨n, hlt, hplain⟩ := h.numbers layout hlayout hstyle
    obtain ⟨m, hm, hpos⟩ := hconfig.natural?_of_bare hvalid hlayout hstyle
    have hle : n ≤ Numeral.most64 := Nat.le_trans (Nat.le_of_lt hlt) (by decide)
    rw [hplain, Numeral.natural?_toString hle] at hm
    rw [hplain]
    exact isTomlNumber_toString (Option.some.inj hm ▸ hpos) hlt
  have hstatements := hgraph.sound.wellFormed.statementsText_ended (anglesBalanced_of_valid hnodes)
  have htext : Source.StatementsText job.graph.items
      (String.ofList (ended job.graph.bodyLines)).toList := by
    rw [String.toList_ofList]
    exact hstatements
  obtain ⟨g', hsource, hrewrites⟩ := hgraph.sound.rewrites_of_text htext
  have hspec := ofSpec_eq (split_text hconfig hvalid hnone)
    (JobConfig.read?_settings (JobConfig.readable_settings hnumbers)) job.config.typeOf_table
    (JobConfig.readConfig_table hconfig hvalid) hsource
  refine ⟨_, hspec, returns_reread (String.toList_inj.1 ?_)⟩
  rw [toList_text, toList_text, JobConfig.settings_reread h.numbers,
    hrewrites.bodyLines_eq hgraph.sound]

/-! ## What is not read back -/

/-- Three quotes end the pipeline text inside of a value, which is refused. -/
theorem noTriple_of_ofSpec (hgraph : job.graph.Built) (hconfig : job.config.Configured)
    (hvalid : job.config.isValid = true) (hnodes : ∀ n ∈ job.graph.nodes, n.isValid = true)
    {imported : ImportedJob} (h : Job.ofSpec job.compile.text = .ok imported) :
    NoTriple (ended job.graph.bodyLines) := by
  rcases hgraph.sound.wellFormed.tripleAt_ended (anglesBalanced_of_valid hnodes) with
    hnone | ⟨inner, rest, hsome, hopen⟩
  · exact hnone
  · obtain ⟨_, _, _, _, _, hsource⟩ := of_ofSpec (split_text_of_triple hconfig hvalid hsome) h
    obtain ⟨error, herror⟩ := TaskGraph.ofSource_open hopen
    rw [herror] at hsource
    cases hsource

end Job

namespace JobConfig

variable {config : JobConfig} {above : List JobFieldLayout} {layout : JobFieldLayout} {n : Nat}

/-- The line of a value without quotes, below the others. -/
theorem settings_last (hfields : config.type.fields = above ++ [layout])
    (hstyle : layout.style = .bare)
    (hn : Numeral.natural? Numeral.most64 (Text.trimmed (config.raw layout.key)) = some n) :
    config.settings = config.settingsFor above ++
      [⟨layout.key, .integer n, (Text.trimmed (config.raw layout.key)).toList⟩] := by
  rw [settings_eq, hfields, settingsFor, settingsFor, List.flatMap_append, List.flatMap_singleton,
    JobFieldLayout.setting?_of_number hstyle hn, List.append_assoc]
  rfl

theorem settings_reread_last (hfields : config.type.fields = above ++ [layout])
    (habove : ∀ other ∈ above, other.style ≠ .bare) (hstyle : layout.style = .bare)
    (hn : Numeral.natural? Numeral.most64 (Text.trimmed (config.raw layout.key)) = some n) :
    config.reread.settings = config.settingsFor above ++
      [⟨layout.key, .integer n, (toString n).toList⟩] := by
  have hlayout : layout ∈ config.type.fields := by
    rw [hfields]
    exact List.mem_append_right _ (List.mem_singleton_self layout)
  have hmem : ∀ other ∈ above, other ∈ config.type.fields := by
    rw [hfields]
    exact fun other hother => List.mem_append_left _ hother
  have hsame := @settingsFor_reread config above hmem fun other hother hbare =>
    absurd hbare (habove other hother)
  rw [settings_eq, type_reread, hfields, settingsFor, List.flatMap_append, List.flatMap_singleton,
    raw_reread hlayout, JobFieldLayout.setting?_reread hstyle hn, ← List.append_assoc,
    ← settingsFor, hsame]
  rfl

/-- A value without quotes that is not a number of TOML refuses the preamble. -/
theorem read?_settings_refused (hfields : config.type.fields = above ++ [layout])
    (habove : ∀ other ∈ above, other.style ≠ .bare) (hstyle : layout.style = .bare)
    (hn : Numeral.natural? Numeral.most64 (Text.trimmed (config.raw layout.key)) = some n)
    {c : Char} {more : List Char} (htext : (Text.trimmed (config.raw layout.key)).toList = c :: more)
    (hc : Toml.OpensValue c) (hrefused : ∀ below,
      ((Toml.simple? (c :: (more ++ '\n' :: below))).bind fun r => Toml.Scan.trailing r.2) = none) :
    Toml.read? (String.ofList (config.settings.flatMap Setting.line ++ ['\n'])) = none := by
  have hmem : ∀ other ∈ above, other ∈ config.type.fields := by
    rw [hfields]
    exact fun other hother => List.mem_append_left _ hother
  have hkey : Toml.IsBareKey layout.key.toList := by
    refine @JobType.isBareKey_of_field config.type layout ?_
    rw [hfields]
    exact List.mem_append_right _ (List.mem_singleton_self layout)
  have hreadable := @readable_settingsFor config above hmem fun other hother hbare =>
    absurd hbare (habove other hother)
  have hlast := settings_last hfields hstyle hn
  have hkeys : ((config.settingsFor above).map Setting.key).Nodup := by
    have hnodup := config.nodup_settings
    rw [hlast, List.map_append] at hnodup
    exact (List.nodup_append.1 hnodup).1
  have hread : ∀ settings : List Setting, (∃ first rest, settings = first :: rest) →
      (∀ s ∈ settings, s.Readable) → (settings.map Setting.key).Nodup →
      Toml.read? (String.ofList (settings.flatMap Setting.line ++
        (layout.key.toList ++ ' ' :: '=' :: ' ' :: c :: (more ++ ['\n', '\n'])))) = none := by
    rintro settings ⟨first, rest, rfl⟩ hreadable hkeys
    exact Toml.read?_refused hreadable hkeys hkey hc (hrefused ['\n'])
  have hline : config.settings.flatMap Setting.line ++ ['\n'] =
      (config.settingsFor above).flatMap Setting.line ++
        (layout.key.toList ++ ' ' :: '=' :: ' ' :: c :: (more ++ ['\n', '\n'])) := by
    rw [hlast, htext, List.flatMap_append, List.flatMap_singleton, Setting.line]
    simp
  rw [hline]
  exact hread _ ⟨_, _, rfl⟩ hreadable hkeys

end JobConfig

namespace Job

variable {job : Job}

theorem exists_below {above : List Setting} {s : Setting}
    (h : job.config.settings = above ++ [s]) : ∃ below, job.compile.text.toList =
      above.flatMap Setting.line ++ (s.key.toList ++ ' ' :: '=' :: ' ' :: (s.text ++ '\n' :: below)) := by
  refine ⟨'\n' :: (openingLine ++ '\n' :: (ended job.graph.bodyLines ++ tripleQuote)), ?_⟩
  rw [toList_text, h, List.flatMap_append, List.flatMap_singleton, Setting.line]
  simp

/-- Equal texts have the same first character in the value of the last setting. -/
theorem head?_of_text_eq {other : Job} {above : List Setting} {key : String} {v w : Toml.Value}
    {s t : List Char} (hjob : job.config.settings = above ++ [⟨key, v, s⟩])
    (hother : other.config.settings = above ++ [⟨key, w, t⟩])
    (h : job.compile.text = other.compile.text) : (s ++ ['\n']).head? = (t ++ ['\n']).head? := by
  obtain ⟨below, hjob⟩ := exists_below hjob
  obtain ⟨below', hother⟩ := exists_below hother
  rw [h, hother, List.append_cancel_left_eq, List.append_cancel_left_eq] at hjob
  have hvalues : t ++ '\n' :: below' = s ++ '\n' :: below := by simpa using hjob
  have hhead := congrArg List.head? hvalues
  rw [List.head?_append, List.head?_append] at hhead
  rw [List.head?_append, List.head?_append]
  exact hhead.symm

/-- The configuration of an import, where the values without quotes are numbers of TOML. -/
theorem config_of_ofSpec (hconfig : job.config.Configured) (hvalid : job.config.isValid = true)
    (hnone : NoTriple (ended job.graph.bodyLines))
    (hnumbers : ∀ layout ∈ job.config.type.fields, layout.style = .bare →
      IsTomlNumber (Text.trimmed (job.config.raw layout.key)).toList)
    {imported : ImportedJob} (h : Job.ofSpec job.compile.text = .ok imported) :
    imported.job.config = job.config.reread := by
  have hsplit := split_text hconfig hvalid hnone
  obtain ⟨table, type, htable, htype, himported, -⟩ := of_ofSpec (congrArg Prod.snd hsplit) h
  rw [hsplit] at htable
  dsimp only at htable
  rw [JobConfig.read?_settings (JobConfig.readable_settings hnumbers)] at htable
  cases htable
  rw [job.config.typeOf_table] at htype
  cases htype
  rw [himported, JobConfig.readConfig_table hconfig hvalid]

/-- A value without quotes is the plain form of a number where the text comes back. -/
theorem numbers_of_ofSpec (hconfig : job.config.Configured) (hvalid : job.config.isValid = true)
    (hnone : NoTriple (ended job.graph.bodyLines)) {imported : ImportedJob}
    (h : Job.ofSpec job.compile.text = .ok imported)
    (htext : imported.job.compile.text = job.compile.text) :
    ∀ layout ∈ job.config.type.fields, layout.style = .bare →
      ∃ n, n < twoTo 63 ∧ Text.trimmed (job.config.raw layout.key) = toString n := by
  intro layout hlayout hstyle
  obtain ⟨n, hn, hpos⟩ := hconfig.natural?_of_bare hvalid hlayout hstyle
  obtain ⟨above, hfields, habove⟩ := JobType.exists_above hlayout hstyle
  rcases number_cases hn hpos with ⟨hlt, hplain⟩ | ⟨hnumber, hplus⟩ | ⟨c, more, hcut, hc, hrefused⟩
  · exact ⟨n, hlt, hplain⟩
  · -- The plus sign is read, and not written again.
    exfalso
    have honly : ∀ other ∈ job.config.type.fields, other.style = .bare → other = layout := by
      intro other hother hbare
      rw [hfields, List.mem_append, List.mem_singleton] at hother
      exact hother.resolve_left fun hmem => habove other hmem hbare
    have hnumbers : ∀ other ∈ job.config.type.fields, other.style = .bare →
        IsTomlNumber (Text.trimmed (job.config.raw other.key)).toList := by
      intro other hother hbare
      rw [honly other hother hbare]
      exact hnumber
    have himported := config_of_ofSpec hconfig hvalid hnone hnumbers h
    have hwritten := JobConfig.settings_last hfields hstyle hn
    have hrewritten : imported.job.config.settings = job.config.settingsFor above ++
        [⟨layout.key, .integer n, (toString n).toList⟩] := by
      rw [himported, JobConfig.settings_reread_last hfields habove hstyle hn]
    have hhead := head?_of_text_eq hwritten hrewritten htext.symm
    obtain ⟨d, hd, hdigit⟩ := Numeral.exists_head?_toString n
    rw [List.head?_append, List.head?_append, hplus, hd] at hhead
    rw [← Option.some.inj hhead] at hdigit
    exact absurd hdigit (by decide)
  · -- The line is refused, and with it the text.
    exfalso
    have hsplit := split_text hconfig hvalid hnone
    obtain ⟨_, _, htable, -⟩ := of_ofSpec (congrArg Prod.snd hsplit) h
    rw [hsplit] at htable
    dsimp only at htable
    rw [JobConfig.read?_settings_refused hfields habove hstyle hn hcut hc hrefused] at htable
    cases htable

/-- The text of a valid job comes back exactly where it is portable. -/
theorem reimports_iff (hgraph : job.graph.Built) (hconfig : job.config.Configured)
    (hvalid : job.config.isValid = true) (hnodes : ∀ n ∈ job.graph.nodes, n.isValid = true) :
    job.Reimports ↔ job.Portable := by
  constructor
  · rintro ⟨imported, himported, hreturns⟩
    have hnone := noTriple_of_ofSpec hgraph hconfig hvalid hnodes himported
    constructor
    · exact (noTriple_iff _).1 ((TaskGraph.noTriple_ended_iff job.graph).1 hnone)
    · exact numbers_of_ofSpec hconfig hvalid hnone himported hreturns.text
  · exact reimports_of_portable hgraph hconfig hvalid hnodes

/-- A request for the sum of some values. -/
def sumJob (values confirmations : String) : Job where
  config := (JobConfig.ofType .directRequest).afterAll
    [("contractAddress", "0x0123456789abcdef0123456789ABCDEF01234567"),
      ("minIncomingConfirmations", confirmations)]
  graph := TaskGraph.empty.afterAll
    [.addNamed .sum "total" .origin none, .setFields "node_1" [("values", values)]]

theorem configured_sumJob (values confirmations : String) :
    (sumJob values confirmations).config.Configured where
  specifics := ⟨_, rfl⟩
  gasLimit := nofun

/-- The number three with more than its digit is let in, and not portable. -/
theorem not_portable_sumJob {values confirmations : String}
    (hne : Text.trimmed confirmations ≠ "3")
    (hread : Numeral.natural? Numeral.most64 (Text.trimmed confirmations) = some 3)
    (hraw : (sumJob values confirmations).config.raw "minIncomingConfirmations" = confirmations) :
    ¬(sumJob values confirmations).Portable := by
  rintro ⟨-, hnumbers⟩
  obtain ⟨n, hlt, hplain⟩ := hnumbers ⟨"minIncomingConfirmations", .bare, "1"⟩
    (List.mem_cons_of_mem _ (List.mem_cons_of_mem _ (List.mem_singleton_self _))) rfl
  have hle : n ≤ Numeral.most64 := Nat.le_trans (Nat.le_of_lt hlt) (by decide)
  rw [hraw] at hplain
  rw [hplain, Numeral.natural?_toString hle] at hread
  cases hread
  exact hne hplain

/-- A sum of numbers comes back.  With a leading zero or a plus sign before the
confirmations, or with three quotes among the values, it is as valid and does not. -/
theorem reimports_iff_sumJob :
    ((sumJob "1, 2" "3").config.isValid = true ∧ (sumJob "1, 2" "3").Reimports) ∧
    ((sumJob "1, 2" "03").config.isValid = true ∧ ¬(sumJob "1, 2" "03").Reimports) ∧
    ((sumJob "1, 2" "+3").config.isValid = true ∧ ¬(sumJob "1, 2" "+3").Reimports) ∧
    ((∀ n ∈ (sumJob "\"\"\"" "3").graph.nodes, n.isValid = true) ∧
      ¬(sumJob "\"\"\"" "3").Reimports) := by
  have hnodes : ∀ n ∈ (sumJob "1, 2" "3").graph.nodes, n.isValid = true := by decide
  have hquoted : ∀ n ∈ (sumJob "\"\"\"" "3").graph.nodes, n.isValid = true := by decide
  have hplain : (sumJob "1, 2" "3").config.isValid = true := by decide +kernel
  have hzero : (sumJob "1, 2" "03").config.isValid = true := by decide +kernel
  have hplus : (sumJob "1, 2" "+3").config.isValid = true := by decide +kernel
  have hvalid : (sumJob "\"\"\"" "3").config.isValid = true := by decide +kernel
  refine ⟨⟨hplain, ?_⟩, ⟨hzero, ?_⟩, ⟨hplus, ?_⟩, ⟨hquoted, ?_⟩⟩
  · rw [reimports_iff ⟨_, rfl⟩ (configured_sumJob _ _) hplain hnodes]
    have hnone : Text.aroundMark? tripleQuote (sumJob "1, 2" "3").graph.source.toList = none := by
      decide +kernel
    refine ⟨(noTriple_iff _).1 hnone, fun layout hlayout hstyle => ⟨3, by decide, ?_⟩⟩
    obtain ⟨above, hfields, habove⟩ := JobType.exists_above hlayout hstyle
    have hlast : layout = ⟨"minIncomingConfirmations", .bare, "1"⟩ := by
      have hlast? := congrArg List.getLast? hfields
      rw [List.getLast?_concat] at hlast?
      exact (Option.some.inj hlast?).symm
    rw [hlast]
    decide +kernel
  · rw [reimports_iff ⟨_, rfl⟩ (configured_sumJob _ _) hzero hnodes]
    exact not_portable_sumJob (by decide) (by decide) (by decide +kernel)
  · rw [reimports_iff ⟨_, rfl⟩ (configured_sumJob _ _) hplus hnodes]
    exact not_portable_sumJob (by decide) (by decide) (by decide +kernel)
  · rw [reimports_iff ⟨_, rfl⟩ (configured_sumJob _ _) hvalid hquoted]
    rintro ⟨hbody, -⟩
    have hsome : Text.aroundMark? tripleQuote (sumJob "\"\"\"" "3").graph.source.toList ≠ none := by
      decide +kernel
    exact hsome ((noTriple_iff _).2 hbody)

end Job
end JobPipeline
