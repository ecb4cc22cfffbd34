import JobPipeline.Proofs.Document.Body
import JobPipeline.Proofs.Job.Preamble
import JobPipeline.Proofs.Job.Rules

/-
The two verdicts on a job, by the flags of its document and by the list of its errors.

A flag is down for a task or a field that breaks a rule, and so is an entry of the list
there.  The verdicts can differ only over what has no line.  A kind of task that is not
written has no rule to break.  A field of the job type that is left out when it is empty
has one, though, and no empty value satisfies it: the document is fine without the field
while the list complains of it.
-/
namespace JobPipeline

/-! ## Documents -/

namespace Document

theorem isValid_append (first second : Document) :
    isValid (first ++ second) = (isValid first && isValid second) := by
  simp only [isValid, List.all_append]

theorem isValid_flatMap {α : Type} (xs : List α) (f : α → Document) :
    isValid (xs.flatMap f) = xs.all fun x => isValid (f x) := by
  simp only [isValid, List.all_flatMap]

theorem isValid_of_unflagged {lines : Document} (h : ∀ line ∈ lines, line.valid = none) :
    isValid lines = true := by
  unfold isValid
  simp only [List.all_eq_true]
  intro line hline
  simp [h line hline]

theorem isValid_of_flagged {lines : Document} {valid : Bool} (hne : lines ≠ [])
    (h : ∀ line ∈ lines, line.valid = some valid) : isValid lines = valid := by
  cases valid with
  | true =>
    simp only [isValid, List.all_eq_true]
    intro line hline
    simp [h line hline]
  | false =>
    obtain ⟨first, rest, rfl⟩ := List.exists_cons_of_ne_nil hne
    simp [isValid, h first List.mem_cons_self]

end Document

/-! ## Tasks -/

namespace Node

theorem valid_of_mem_attributeLines {node : Node} {attributes : List (List Char)} {line : DocumentLine}
    (h : line ∈ node.attributeLines attributes) : line.valid = some node.isValid := by
  induction attributes with
  | nil => simp [attributeLines] at h
  | cons first rest ih =>
    rw [attributeLines, List.mem_append] at h
    rcases h with h | h
    · obtain ⟨text, -, rfl⟩ := List.mem_map.1 h
      rfl
    · exact ih h

theorem valid_of_mem_block {node : Node} {g : TaskGraph} {line : DocumentLine}
    (h : line ∈ node.block g) : line.valid = some node.isValid := by
  unfold block at h
  split at h
  · rw [List.mem_singleton.1 h]
    rfl
  · rcases List.mem_cons.1 h with rfl | h
    · rfl
    · exact valid_of_mem_attributeLines h

theorem isValid_block (node : Node) (g : TaskGraph) :
    Document.isValid (node.block g) = node.isValid :=
  Document.isValid_of_flagged (node.block_ne_nil g) fun _ => valid_of_mem_block

/-- A kind that is not written has no rule to break. -/
theorem isValid_of_unwritten {node : Node} (h : node.kind.isWritten = false) : node.isValid = true := by
  rw [isValid, fieldErrors, TaskKind.fieldErrors, List.isEmpty_iff, List.flatMap_eq_nil_iff]
  intro layout hlayout
  have hfree : layout.rule = .free ∧ layout.style.isArray = false := by
    have hall : ∀ kind ∈ TaskKind.all, kind.isWritten = false →
        ∀ layout ∈ kind.fields, layout.rule = .free ∧ layout.style.isArray = false := by decide
    exact hall node.kind (TaskKind.mem_all node.kind) h layout hlayout
  simp [FieldLayout.errors, FieldRule.complaint?, hfree.1, hfree.2]

end Node

theorem TaskGraph.isValid_bodyLines (g : TaskGraph) :
    Document.isValid g.bodyLines = g.nodes.all Node.isValid := by
  have hbelow : Document.isValid (TaskGraph.below (g.writtenEdges.map TaskGraph.edgeLine)) = true := by
    refine Document.isValid_of_unflagged fun line hline => ?_
    cases hedges : g.writtenEdges with
    | nil => simp [hedges, TaskGraph.below] at hline
    | cons edge edges =>
      rw [hedges, List.map_cons] at hline
      rcases List.mem_cons.1 hline with rfl | hline
      · rfl
      · obtain ⟨other, -, rfl⟩ := List.mem_map.1 (List.map_cons ▸ hline)
        rfl
  rw [TaskGraph.bodyLines_eq, Document.isValid_append, Document.isValid_flatMap, hbelow,
    Bool.and_true, TaskGraph.written, List.all_filter]
  refine List.all_congr rfl fun node => ?_
  rw [Node.isValid_block]
  cases hwritten : node.kind.isWritten with
  | true => rfl
  | false => simp [Node.isValid_of_unwritten hwritten]

/-! ## Configurations -/

/-- A change of the type of a job or of one field of it. -/
inductive ConfigEdit where
  | setType (type : JobType)
  | setSpecific (key value : String)

/-- A field of the preamble that is left out when it is empty. -/
def JobFieldLayout.isOptional (layout : JobFieldLayout) : Bool :=
  layout.style = .quotedOptional ∨ layout.style = .bare

theorem Text.trimmed_eq_empty_iff (s : String) : Text.trimmed s = "" ↔ Text.blank s = true := by
  rw [Text.blank, ← Text.trim_eq_nil_iff, Text.trimmed, ← String.toList_inj, String.toList_ofList]
  rfl

namespace JobType

/-- A type has rules for its own fields only. -/
theorem allows_of_foreign {type : JobType} {key : String} (value : String)
    (h : ∀ layout ∈ type.fields, layout.key ≠ key) : type.allows key value = true := by
  cases type with
  | cron =>
    have hschedule : "schedule" ≠ key := h _ (List.mem_singleton_self _)
    rw [allows, if_neg hschedule.symm]
  | directRequest =>
    have haddress : "contractAddress" ≠ key := h ⟨"contractAddress", .quoted, ""⟩ (by decide)
    have hpayment : "minContractPaymentLinkJuels" ≠ key :=
      h ⟨"minContractPaymentLinkJuels", .quotedOptional, "0"⟩ (by decide)
    have hconfirmations : "minIncomingConfirmations" ≠ key :=
      h ⟨"minIncomingConfirmations", .bare, "1"⟩ (by decide)
    rw [allows, if_neg haddress.symm, if_neg hpayment.symm, if_neg hconfirmations.symm]
  | _ => rfl

/-- No rule of a field that is left out when it is empty allows an empty value. -/
theorem not_allows_blank {type : JobType} {layout : JobFieldLayout} (hlayout : layout ∈ type.fields)
    (hoptional : layout.isOptional = true) {raw : String} (hblank : Text.blank raw = true) :
    type.allows layout.key raw = false := by
  have htrimmed := (Text.trimmed_eq_empty_iff raw).2 hblank
  rw [← Bool.not_eq_true]
  intro hallows
  rcases field_cases hlayout hallows with ⟨-, rfl, -⟩ | ⟨-, rfl, -⟩ | ⟨-, -, hamount⟩ | ⟨-, -, n, hn, -⟩
  · simp [JobFieldLayout.isOptional] at hoptional
  · simp [JobFieldLayout.isOptional] at hoptional
  · rw [htrimmed] at hamount
    exact absurd hamount (by decide)
  · have hnone : Numeral.natural? Numeral.most64 "" = none := by decide
    rw [htrimmed, hnone] at hn
    cases hn

end JobType

namespace JobConfig

def edit (config : JobConfig) : ConfigEdit → JobConfig
  | .setType type => config.setType type
  | .setSpecific key value => config.setSpecific key value

def edited (config : JobConfig) (edits : List ConfigEdit) : JobConfig := edits.foldl edit config

theorem Judged.edit {config : JobConfig} (h : config.Judged) (e : ConfigEdit) : (config.edit e).Judged := by
  cases e with
  | setType type =>
    have htype := judged_ofType type
    exact ⟨htype.valid, htype.present⟩
  | setSpecific key value => exact h.afterAll [(key, value)]

theorem Judged.edited {config : JobConfig} (h : config.Judged) (edits : List ConfigEdit) :
    (config.edited edits).Judged := by
  induction edits generalizing config with
  | nil => exact h
  | cons e edits ih => exact ih (h.edit e)

variable {config : JobConfig} {layout : JobFieldLayout}

theorem Judged.find?_eq_raw (h : config.Judged) (hlayout : layout ∈ config.type.fields) :
    config.specifics.find? layout.key =
      some ⟨config.raw layout.key, config.type.allows layout.key (config.raw layout.key)⟩ := by
  obtain ⟨field, hfield⟩ := Option.isSome_iff_exists.1 (h.present layout hlayout)
  have hraw : config.raw layout.key = field.value := by
    rw [raw, hfield]
  rw [hraw, ← h.valid layout.key field hfield, hfield]

/-- A field is left out if it may be and is empty; else its line has its flag. -/
theorem isValid_specificLine (h : config.Judged) (hlayout : layout ∈ config.type.fields) :
    Document.isValid (config.specificLine layout) =
      (layout.isOptional && Text.blank (config.raw layout.key) ||
        config.type.allows layout.key (config.raw layout.key)) := by
  have hline : ∀ text valid, Document.isValid [preambleLine layout.key text (some valid)] = valid := by
    intro text valid
    cases valid <;> rfl
  have hnil : Document.isValid [] = true := rfl
  rw [specificLine, h.find?_eq_raw hlayout]
  cases hstyle : layout.style with
  | cronSchedule => simp [JobFieldLayout.isOptional, hstyle, hline]
  | quoted => simp [JobFieldLayout.isOptional, hstyle, hline]
  | quotedOptional =>
    by_cases hblank : Text.trimmed (config.raw layout.key) = ""
    · simp [JobFieldLayout.isOptional, hstyle, hblank, hnil, (Text.trimmed_eq_empty_iff _).1 hblank]
    · have hfull := mt (Text.trimmed_eq_empty_iff _).2 hblank
      simp [JobFieldLayout.isOptional, hstyle, hblank, hline, hfull]
  | bare =>
    by_cases hblank : Text.trimmed (config.raw layout.key) = ""
    · simp [JobFieldLayout.isOptional, hstyle, hblank, hnil, (Text.trimmed_eq_empty_iff _).1 hblank]
    · have hfull := mt (Text.trimmed_eq_empty_iff _).2 hblank
      simp [JobFieldLayout.isOptional, hstyle, hblank, hline, hfull]

theorem isValid_preamble (config : JobConfig) : Document.isValid config.preamble =
    config.type.fields.all fun layout => Document.isValid (config.specificLine layout) := by
  have hcommon : Document.isValid (config.commonSettings.map (shownLine none)) = true := by
    refine Document.isValid_of_unflagged fun line hline => ?_
    obtain ⟨s, -, rfl⟩ := List.mem_map.1 hline
    rfl
  rw [preamble_eq, Document.isValid_append, hcommon, Bool.true_and, Document.isValid_flatMap]

end JobConfig

/-! ## The list of errors -/

/-- A task or a field of the job type breaks a rule. -/
def ValidationError.isBreach : ValidationError → Bool
  | .invalidField .. => true
  | .invalidJobField .. => true
  | _ => false

/-- A task is complained of by name, never as a field of the job. -/
theorem Node.isBreach_of_mem_errors {node : Node} {e : ValidationError} (he : e ∈ node.errors)
    (hbreach : e.isBreach = true) :
    node.isValid = false ∧ ∃ task field message, e = .invalidField task field message := by
  rw [errors, List.mem_append] at he
  rcases he with he | he
  · by_cases hwritten : node.kind.isWritten = true
    · simp [hwritten] at he
    · simp only [hwritten, if_false, Bool.false_eq_true, List.mem_singleton] at he
      rw [he] at hbreach
      cases hbreach
  · obtain ⟨fault, hfault, rfl⟩ := List.mem_map.1 he
    refine ⟨?_, _, _, _, rfl⟩
    rw [isValid, List.isEmpty_eq_false_iff]
    exact List.ne_nil_of_mem hfault

theorem Node.exists_error {node : Node} (h : node.isValid = false) :
    ∃ task field message, .invalidField task field message ∈ node.errors := by
  rw [isValid, List.isEmpty_eq_false_iff] at h
  obtain ⟨fault, hfault⟩ := List.exists_mem_of_ne_nil _ h
  refine ⟨node.name, fault.field, fault.message, ?_⟩
  rw [errors, List.mem_append, List.mem_map]
  exact .inr ⟨fault, hfault, rfl⟩

theorem TaskGraph.exists_of_mem_errors {g : TaskGraph} {e : ValidationError} (he : e ∈ g.errors)
    (hbreach : e.isBreach = true) : ∃ node ∈ g.nodes, e ∈ node.errors := by
  rw [errors, errorsIn, List.mem_append, List.mem_append] at he
  rcases he with (he | he) | he
  · exact List.mem_flatMap.1 he
  · obtain ⟨node, -, he⟩ := List.mem_flatMap.1 he
    obtain ⟨id, -, rfl⟩ := List.mem_map.1 he
    cases hbreach
  · by_cases hcycle : g.hasCycle g.inDegrees.keys = true
    · rw [if_pos hcycle, List.mem_singleton] at he
      rw [he] at hbreach
      cases hbreach
    · simp [hcycle] at he

namespace Job

variable {job : Job}

/-- A field of the job is complained of exactly if its rule does not allow its value. -/
theorem invalidJobField_mem_errors_iff (h : job.config.Judged) (key value : String) :
    .invalidJobField key value ∈ job.errors ↔
      ∃ layout ∈ job.config.type.fields, layout.key = key ∧ job.config.raw layout.key = value ∧
        job.config.type.allows layout.key (job.config.raw layout.key) = false := by
  constructor
  · intro he
    rw [errors, List.mem_append] at he
    rcases he with he | he
    · obtain ⟨⟨k, field⟩, hentry, he⟩ := List.mem_filterMap.1 he
      have hfield := (Dict.mem_entries_iff _ k field).1 hentry
      have hvalid := h.valid k field hfield
      cases hflag : field.valid with
      | true => simp [hflag] at he
      | false =>
        simp only [hflag, if_false, Bool.false_eq_true, Option.some.injEq,
          ValidationError.invalidJobField.injEq] at he
        obtain ⟨rfl, rfl⟩ := he
        rw [hflag] at hvalid
        have hknown : ∃ layout ∈ job.config.type.fields, layout.key = k := by
          by_contra hforeign
          push Not at hforeign
          rw [JobType.allows_of_foreign _ hforeign] at hvalid
          cases hvalid
        obtain ⟨layout, hlayout, rfl⟩ := hknown
        have hraw : job.config.raw layout.key = field.value := by
          rw [JobConfig.raw, hfield]
        exact ⟨layout, hlayout, rfl, hraw, by rw [hraw, ← hvalid]⟩
    · obtain ⟨node, -, he⟩ := TaskGraph.exists_of_mem_errors he rfl
      obtain ⟨-, task, field, message, heq⟩ := Node.isBreach_of_mem_errors he rfl
      cases heq
  · rintro ⟨layout, hlayout, rfl, rfl, hallows⟩
    have hfield := h.find?_eq_raw hlayout
    rw [hallows] at hfield
    rw [errors, List.mem_append, List.mem_filterMap]
    exact .inl ⟨(layout.key, _), (Dict.mem_entries_iff _ _ _).2 hfield, rfl⟩

theorem isBreach_cases {e : ValidationError} (he : e ∈ job.errors) (hbreach : e.isBreach = true) :
    (∃ node ∈ job.graph.nodes, node.isValid = false) ∨ ∃ key value, e = .invalidJobField key value := by
  rw [errors, List.mem_append] at he
  rcases he with he | he
  · obtain ⟨⟨key, field⟩, -, he⟩ := List.mem_filterMap.1 he
    by_cases hflag : field.valid = true
    · simp [hflag] at he
    · simp only [hflag, if_false, Bool.false_eq_true, Option.some.injEq] at he
      exact .inr ⟨key, field.value, he.symm⟩
  · obtain ⟨node, hnode, he⟩ := TaskGraph.exists_of_mem_errors he hbreach
    exact .inl ⟨node, hnode, (Node.isBreach_of_mem_errors he hbreach).1⟩

theorem exists_error_of_invalid {node : Node} (hnode : node ∈ job.graph.nodes)
    (h : node.isValid = false) : ∃ task field message, .invalidField task field message ∈ job.errors := by
  obtain ⟨task, field, message, he⟩ := Node.exists_error h
  refine ⟨task, field, message, ?_⟩
  rw [errors, TaskGraph.errors, TaskGraph.errorsIn, List.mem_append, List.mem_append, List.mem_append]
  exact .inr (.inl (.inl (List.mem_flatMap_of_mem hnode he)))

/-- A document is valid exactly if each task is and each field that has a line. -/
theorem isValid_compile (h : job.config.Judged) :
    job.compile.isValid = true ↔ (∀ node ∈ job.graph.nodes, node.isValid = true) ∧
      ∀ layout ∈ job.config.type.fields,
        job.config.type.allows layout.key (job.config.raw layout.key) = false →
          layout.isOptional = true ∧ Text.blank (job.config.raw layout.key) = true := by
  have hopening : Document.isValid
      [⟨"", none, false⟩, ⟨"observationSource = \"\"\"", none, false⟩] = true := rfl
  have hclosing : Document.isValid [⟨"\"\"\"", none, false⟩] = true := rfl
  rw [compile, Document.isValid_append, Document.isValid_append, Document.isValid_append, hopening,
    hclosing, Bool.and_true, Bool.and_true, TaskGraph.isValid_bodyLines, JobConfig.isValid_preamble,
    Bool.and_eq_true, List.all_eq_true, List.all_eq_true, and_comm]
  refine and_congr_right fun _ => forall₂_congr fun layout hlayout => ?_
  rw [JobConfig.isValid_specificLine h hlayout, Bool.or_eq_true, Bool.and_eq_true,
    or_iff_not_imp_right, Bool.not_eq_true]

/-- The document of a job whose configuration was edited is valid exactly if every breach
in the list of errors is an empty field that is left out of the preamble.  The list does
have a breach for each such field. -/
theorem isValid_compile_iff (type : JobType) (edits : List ConfigEdit) (g : TaskGraph) :
    let job : Job := ⟨(JobConfig.ofType type).edited edits, g⟩
    (job.compile.isValid = true ↔ ∀ e ∈ job.errors, e.isBreach = true →
      ∃ layout ∈ job.config.type.fields, layout.isOptional = true ∧
        Text.blank (job.config.raw layout.key) = true ∧
        e = .invalidJobField layout.key (job.config.raw layout.key)) ∧
    ∀ layout ∈ job.config.type.fields, layout.isOptional = true →
      Text.blank (job.config.raw layout.key) = true →
        .invalidJobField layout.key (job.config.raw layout.key) ∈ job.errors := by
  intro job
  have hjudged : job.config.Judged := (JobConfig.judged_ofType type).edited edits
  refine ⟨?_, fun layout hlayout hoptional hblank => ?_⟩
  · rw [isValid_compile hjudged]
    constructor
    · rintro ⟨hnodes, hfields⟩ e he hbreach
      rcases isBreach_cases he hbreach with ⟨node, hnode, hinvalid⟩ | ⟨key, value, rfl⟩
      · rw [hnodes node hnode] at hinvalid
        cases hinvalid
      · obtain ⟨layout, hlayout, rfl, rfl, hbroken⟩ := (invalidJobField_mem_errors_iff hjudged _ _).1 he
        obtain ⟨hoptional, hblank⟩ := hfields layout hlayout hbroken
        exact ⟨layout, hlayout, hoptional, hblank, rfl⟩
    · intro hall
      constructor
      · intro node hnode
        by_contra hinvalid
        obtain ⟨task, field, message, he⟩ :=
          exists_error_of_invalid hnode (Bool.not_eq_true _ ▸ hinvalid)
        obtain ⟨layout, -, -, -, heq⟩ := hall _ he rfl
        cases heq
      · intro layout hlayout hbroken
        have he := (invalidJobField_mem_errors_iff hjudged _ _).2 ⟨layout, hlayout, rfl, rfl, hbroken⟩
        obtain ⟨other, hother, hoptional, hblank, heq⟩ := hall _ he rfl
        -- No two fields of a type have one key, so the error tells the field.
        have hkey : layout.key = other.key := (ValidationError.invalidJobField.inj heq).1
        have hnodup := List.Nodup.of_append_right (JobType.nodup_keys job.config.type)
        have hsame : layout = other := List.inj_on_of_nodup_map hnodup hlayout hother hkey
        rw [hsame]
        exact ⟨hoptional, hblank⟩
  · have hbroken := JobType.not_allows_blank hlayout hoptional hblank
    exact (invalidJobField_mem_errors_iff hjudged _ _).2 ⟨layout, hlayout, rfl, rfl, hbroken⟩

end Job
end JobPipeline
