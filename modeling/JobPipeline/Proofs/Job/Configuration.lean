import JobPipeline.Job.Config
import JobPipeline.Proofs.Dict

/-
Configurations whose fields were set one after another.

Whatever is set, every field carries the verdict of its rule and the fields of the
job type are all there, since a configuration starts with their defaults and
nothing takes one away.  A valid configuration therefore has for each field of its
type a value that the type allows.
-/
namespace JobPipeline
namespace JobConfig

/-- Some fields set in turn, by key and value. -/
def afterAll (config : JobConfig) (edits : List (String × String)) : JobConfig :=
  edits.foldl (fun config edit => config.setSpecific edit.1 edit.2) config

/-- The fields of the job type were set from their defaults on.  The fields that
all jobs have are free; a gas limit has 64 bits. -/
structure Configured (config : JobConfig) : Prop where
  specifics : ∃ edits, config.specifics = ((ofType config.type).afterAll edits).specifics
  gasLimit : ∀ n, config.gasLimit = some n → n ≤ Numeral.most64

/-- Every field is judged by its rule, and none of the type is missing. -/
structure Judged (config : JobConfig) : Prop where
  valid : ∀ key field, config.specifics.find? key = some field →
    field.valid = config.type.allows key field.value
  present : ∀ layout ∈ config.type.fields, (config.specifics.find? layout.key).isSome = true

/-- Nothing but the fields of the type changes. -/
theorem afterAll_eq (config : JobConfig) (edits : List (String × String)) :
    config.afterAll edits = { config with specifics := (config.afterAll edits).specifics } := by
  induction edits generalizing config with
  | nil => rfl
  | cons edit edits ih => exact ih (config.setSpecific edit.1 edit.2)

theorem type_afterAll (config : JobConfig) (edits : List (String × String)) :
    (config.afterAll edits).type = config.type := by
  rw [afterAll_eq]

theorem find?_setSpecific (config : JobConfig) (key value other : String) :
    (config.setSpecific key value).specifics.find? other =
      if key = other then some ⟨value, config.type.allows key value⟩
      else config.specifics.find? other := Dict.find?_insert _ _ _ _

/-- Setting fields gives each the verdict of its rule, ... -/
theorem valid_afterAll {config : JobConfig}
    (h : ∀ key field, config.specifics.find? key = some field →
      field.valid = config.type.allows key field.value) (edits : List (String × String)) :
    ∀ key field, (config.afterAll edits).specifics.find? key = some field →
      field.valid = config.type.allows key field.value := by
  induction edits generalizing config with
  | nil => exact h
  | cons edit edits ih =>
    refine @ih (config.setSpecific edit.1 edit.2) fun key field hfield => ?_
    rw [find?_setSpecific] at hfield
    split at hfield
    · next heq =>
      cases hfield
      rw [← heq]
      rfl
    · exact h key field hfield

/-- ... keeps the fields that are there, and adds those that are set. -/
theorem isSome_afterAll {config : JobConfig} {key : String} {edits : List (String × String)}
    (h : (config.specifics.find? key).isSome = true ∨ key ∈ edits.map Prod.fst) :
    ((config.afterAll edits).specifics.find? key).isSome = true := by
  induction edits generalizing config with
  | nil => exact h.resolve_right (List.not_mem_nil)
  | cons edit edits ih =>
    refine @ih (config.setSpecific edit.1 edit.2) ?_
    rw [List.map_cons, List.mem_cons] at h
    rw [find?_setSpecific]
    split
    · exact .inl rfl
    · next hne =>
      rcases h with h | h | h
      · exact .inl h
      · exact absurd h.symm hne
      · exact .inr h

/-- A configuration of a type in which nothing is set. -/
def unset (type : JobType) : JobConfig :=
  { type, name := none, externalId := none, gasLimit := none, maxTaskDuration := none,
    forwardingAllowed := none, specifics := Dict.empty, runVariables := type.runVariables }

theorem ofType_eq (type : JobType) :
    ofType type =
      (unset type).afterAll (type.fields.map fun layout => (layout.key, layout.default)) := by
  rw [afterAll, List.foldl_map]
  rfl

theorem type_ofType (type : JobType) : (ofType type).type = type := by
  rw [ofType_eq, type_afterAll]
  rfl

theorem judged_ofType (type : JobType) : (ofType type).Judged := by
  constructor
  · rw [type_ofType, ofType_eq]
    refine valid_afterAll (fun key field hfield => ?_) _
    rw [unset, Dict.find?_empty] at hfield
    cases hfield
  · intro layout hlayout
    rw [type_ofType] at hlayout
    rw [ofType_eq]
    refine isSome_afterAll (.inr ?_)
    rw [List.map_map]
    exact List.mem_map_of_mem (f := JobFieldLayout.key) hlayout

theorem Judged.afterAll {config : JobConfig} (h : config.Judged) (edits : List (String × String)) :
    (config.afterAll edits).Judged := by
  constructor
  · rw [type_afterAll]
    exact valid_afterAll h.valid edits
  · rw [type_afterAll]
    exact fun layout hlayout => isSome_afterAll (.inl (h.present layout hlayout))

theorem Configured.judged {config : JobConfig} (h : config.Configured) : config.Judged := by
  obtain ⟨edits, hspecifics⟩ := h.specifics
  have hjudged := (judged_ofType config.type).afterAll edits
  have htype : ((ofType config.type).afterAll edits).type = config.type := by
    rw [type_afterAll, type_ofType]
  constructor
  · intro key field hfield
    rw [hspecifics] at hfield
    rw [hjudged.valid key field hfield, htype]
  · intro layout hlayout
    rw [hspecifics]
    rw [← htype] at hlayout
    exact hjudged.present layout hlayout

/-- The text of a field of the job type. -/
def raw (config : JobConfig) (key : String) : String :=
  match config.specifics.find? key with
  | some field => field.value
  | none => ""

/-- A valid configuration has an allowed value for each field of its type. -/
theorem Configured.allows_raw {config : JobConfig} (h : config.Configured)
    (hvalid : config.isValid = true) {layout : JobFieldLayout} (hlayout : layout ∈ config.type.fields) :
    config.type.allows layout.key (config.raw layout.key) = true := by
  obtain ⟨⟨text, valid⟩, hfield⟩ := Option.isSome_iff_exists.1 (h.judged.present layout hlayout)
  have hmem : (⟨text, valid⟩ : JobField) ∈ config.specifics.values :=
    List.mem_map_of_mem (f := Prod.snd) (Entries.mem_of_find? hfield)
  have htrue : valid = true := List.all_eq_true.1 hvalid _ hmem
  rw [raw, hfield, ← h.judged.valid layout.key _ hfield]
  exact htrue

end JobConfig
end JobPipeline
