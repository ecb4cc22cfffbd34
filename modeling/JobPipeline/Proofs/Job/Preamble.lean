import JobPipeline.Document
import JobPipeline.Proofs.Job.Configuration
import JobPipeline.Proofs.Toml.Lines

/-
The preamble of a job is a run of settings.

Each line of a preamble is a key and a text for a value, and which keys there can
be depends on the type of the job alone.  `told` has an entry for each of them, with
the setting if the key is written.
-/
namespace JobPipeline

open Toml (Setting)

/-- A text in quotes. -/
def quotedSetting (key s : String) : Setting :=
  ⟨key, .string s, '"' :: (Toml.escape s.toList ++ ['"'])⟩

def truthSetting (key : String) (b : Bool) : Setting :=
  ⟨key, .bool b, (if b then "true" else "false").toList⟩

namespace JobFieldLayout

/-- The number that a value without quotes stands for. -/
def number (raw : String) : Nat := (Numeral.natural? Numeral.most64 (Text.trimmed raw)).getD 0

/-- The setting of a field, unless it is left out. -/
def setting? (layout : JobFieldLayout) (raw : String) : Option Setting :=
  let value := Text.trimmed raw
  match layout.style with
  | .cronSchedule => some (quotedSetting layout.key ("CRON_TZ=UTC " ++ value))
  | .quoted => some (quotedSetting layout.key value)
  | .quotedOptional => if value = "" then none else some (quotedSetting layout.key value)
  | .bare => if value = "" then none else some ⟨layout.key, .integer (number raw), value.toList⟩

theorem setting?_cases {layout : JobFieldLayout} {raw : String} {s : Setting}
    (h : layout.setting? raw = some s) : (∃ t, s = quotedSetting layout.key t) ∨
      layout.style = .bare ∧ s = ⟨layout.key, .integer (number raw), (Text.trimmed raw).toList⟩ := by
  rw [setting?] at h
  split at h
  · exact .inl ⟨_, (Option.some.inj h).symm⟩
  · exact .inl ⟨_, (Option.some.inj h).symm⟩
  · split at h
    · cases h
    · exact .inl ⟨_, (Option.some.inj h).symm⟩
  · next hstyle =>
    split at h
    · cases h
    · exact .inr ⟨hstyle, (Option.some.inj h).symm⟩

theorem key_setting? {layout : JobFieldLayout} {raw : String} {s : Setting}
    (h : layout.setting? raw = some s) : s.key = layout.key := by
  rcases setting?_cases h with ⟨t, rfl⟩ | ⟨-, rfl⟩
  · rfl
  · rfl

theorem number_of_natural? {raw : String} {n : Nat}
    (h : Numeral.natural? Numeral.most64 (Text.trimmed raw) = some n) : number raw = n := by
  rw [number, h]
  rfl

end JobFieldLayout

def JobType.keys (type : JobType) : List String :=
  ["type", "schemaVersion", "name", "externalJobId", "gasLimit", "maxTaskDuration",
    "forwardingAllowed"] ++ type.fields.map JobFieldLayout.key

theorem JobType.nodup_keys (type : JobType) : type.keys.Nodup := by
  cases type <;> decide

theorem JobType.isBareKey_of_mem {type : JobType} {key : String} (h : key ∈ type.keys) :
    Toml.IsBareKey key.toList := by
  have hall : ∀ key ∈ type.keys, Toml.IsBareKey key.toList := by
    cases type <;> decide
  exact hall key h

theorem JobType.isBareKey_of_field {type : JobType} {layout : JobFieldLayout}
    (h : layout ∈ type.fields) : Toml.IsBareKey layout.key.toList :=
  isBareKey_of_mem (List.mem_append_right _ (List.mem_map_of_mem h))

namespace JobConfig

/-- A text that is written: one that is not empty. -/
def shown (s : Option String) : Option String := s.filter fun s => s ≠ ""

/-- What the preamble says under each key. -/
def told (config : JobConfig) : List (String × Option Setting) :=
  [("type", some (quotedSetting "type" config.type.name)),
    ("schemaVersion", some ⟨"schemaVersion", .integer 1, ['1']⟩),
    ("name", (shown config.name).map (quotedSetting "name")),
    ("externalJobId", (shown config.externalId).map (quotedSetting "externalJobId")),
    ("gasLimit", config.gasLimit.map fun n => quotedSetting "gasLimit" (toString n)),
    ("maxTaskDuration", (shown config.maxTaskDuration).map (quotedSetting "maxTaskDuration")),
    ("forwardingAllowed", config.forwardingAllowed.map (truthSetting "forwardingAllowed"))] ++
  config.type.fields.map fun layout => (layout.key, layout.setting? (config.raw layout.key))

def settings (config : JobConfig) : List Setting := config.told.filterMap Prod.snd

theorem keys_told (config : JobConfig) : config.told.map Prod.fst = config.type.keys := by
  rw [told, List.map_append, List.map_map]
  rfl

theorem key_of_told {config : JobConfig} {key : String} {s : Setting}
    (h : (key, some s) ∈ config.told) : s.key = key := by
  have htext : ∀ (o : Option String) (key : String), o.map (quotedSetting key) = some s → s.key = key := by
    intro o key ho
    obtain ⟨t, -, rfl⟩ := Option.map_eq_some_iff.1 ho
    rfl
  rw [told, List.mem_append] at h
  rcases h with h | h
  · simp only [List.mem_cons, Prod.mk.injEq, List.not_mem_nil, or_false] at h
    rcases h with ⟨rfl, h⟩ | ⟨rfl, h⟩ | ⟨rfl, h⟩ | ⟨rfl, h⟩ | ⟨rfl, h⟩ | ⟨rfl, h⟩ | ⟨rfl, h⟩
    · cases h
      rfl
    · cases h
      rfl
    · exact htext _ _ h.symm
    · exact htext _ _ h.symm
    · obtain ⟨n, -, rfl⟩ := Option.map_eq_some_iff.1 h.symm
      rfl
    · exact htext _ _ h.symm
    · obtain ⟨b, -, rfl⟩ := Option.map_eq_some_iff.1 h.symm
      rfl
  · obtain ⟨layout, -, heq⟩ := List.mem_map.1 h
    obtain ⟨rfl, hs⟩ := Prod.mk.inj heq
    exact JobFieldLayout.key_setting? hs

/-! ## The text -/

/-- The settings that all types of job have. -/
def commonSettings (config : JobConfig) : List Setting :=
  [quotedSetting "type" config.type.name, ⟨"schemaVersion", .integer 1, ['1']⟩] ++
    ((shown config.name).map (quotedSetting "name")).toList ++
    ((shown config.externalId).map (quotedSetting "externalJobId")).toList ++
    (config.gasLimit.map fun n => quotedSetting "gasLimit" (toString n)).toList ++
    ((shown config.maxTaskDuration).map (quotedSetting "maxTaskDuration")).toList ++
    (config.forwardingAllowed.map (truthSetting "forwardingAllowed")).toList

theorem commonSettings_cases {config : JobConfig} {s : Setting} (h : s ∈ config.commonSettings) :
    (∃ key t, Toml.IsBareKey key.toList ∧ s = quotedSetting key t) ∨
      s = ⟨"schemaVersion", .integer 1, ['1']⟩ ∨
      ∃ key b, Toml.IsBareKey key.toList ∧ s = truthSetting key b := by
  have htext : ∀ (o : Option String) (key : String), Toml.IsBareKey key.toList →
      s ∈ (o.map (quotedSetting key)).toList →
      ∃ key t, Toml.IsBareKey key.toList ∧ s = quotedSetting key t := by
    intro o key hkey hs
    cases o with
    | none => cases hs
    | some t => exact ⟨key, t, hkey, List.mem_singleton.1 hs⟩
  rw [commonSettings] at h
  simp only [List.mem_append] at h
  rcases h with ((((h | h) | h) | h) | h) | h
  · rcases List.mem_cons.1 h with rfl | h
    · exact .inl ⟨"type", config.type.name, by decide, rfl⟩
    · exact .inr (.inl (List.mem_singleton.1 h))
  · exact .inl (htext _ _ (by decide) h)
  · exact .inl (htext _ _ (by decide) h)
  · have hgas := htext (config.gasLimit.map toString) "gasLimit" (by decide)
    rw [Option.map_map] at hgas
    exact .inl (hgas h)
  · exact .inl (htext _ _ (by decide) h)
  · obtain ⟨b, -, hb⟩ := List.mem_map.1 ((Option.toList_map ..) ▸ h)
    exact .inr (.inr ⟨"forwardingAllowed", b, by decide, hb.symm⟩)

/-- The settings that all types of job have, and those of some fields below them. -/
def settingsFor (config : JobConfig) (layouts : List JobFieldLayout) : List Setting :=
  config.commonSettings ++ layouts.flatMap fun layout =>
    (layout.setting? (config.raw layout.key)).toList

theorem settings_eq (config : JobConfig) :
    config.settings = config.settingsFor config.type.fields := by
  have hcons : ∀ (key : String) (s : Option Setting) (rest : List (String × Option Setting)),
      ((key, s) :: rest).filterMap Prod.snd = s.toList ++ rest.filterMap Prod.snd := by
    intro key s rest
    cases s <;> rfl
  have hfields : ∀ layouts : List JobFieldLayout,
      (layouts.map fun layout => (layout.key, layout.setting? (config.raw layout.key))).filterMap
        Prod.snd = layouts.flatMap fun layout => (layout.setting? (config.raw layout.key)).toList := by
    intro layouts
    induction layouts with
    | nil => rfl
    | cons layout layouts ih => rw [List.map_cons, hcons, ih, List.flatMap_cons]
  rw [settings, told, List.filterMap_append, hfields, settingsFor, commonSettings]
  simp only [hcons, List.filterMap_nil, List.append_nil, List.append_assoc]
  rfl

theorem mem_settingsFor {config : JobConfig} {layouts : List JobFieldLayout} {s : Setting}
    (h : s ∈ config.settingsFor layouts) : s ∈ config.commonSettings ∨
      ∃ layout ∈ layouts, layout.setting? (config.raw layout.key) = some s := by
  rw [settingsFor, List.mem_append, List.mem_flatMap] at h
  rcases h with h | ⟨layout, hlayout, hs⟩
  · exact .inl h
  · exact .inr ⟨layout, hlayout, Option.mem_toList.1 hs⟩

def shownLine (valid : Option Bool) (s : Setting) : DocumentLine :=
  preambleLine s.key (String.ofList s.text) valid

theorem toList_shownLine (valid : Option Bool) (s : Setting) :
    (shownLine valid s).text.toList ++ ['\n'] = s.line := by
  rw [shownLine, preambleLine, Setting.line]
  simp

theorem textLine_eq (key : String) (s : Option String) :
    textLine key s = ((shown s).map (quotedSetting key)).toList.map (shownLine none) := by
  cases s with
  | none => rfl
  | some s =>
    rw [textLine, shown, Option.filter]
    by_cases hs : s = ""
    · rw [if_pos hs, hs]
      rfl
    · rw [if_neg hs, if_pos (decide_eq_true hs)]
      rfl

theorem specificLine_eq (config : JobConfig) (layout : JobFieldLayout) :
    ∃ valid, config.specificLine layout =
      (layout.setting? (config.raw layout.key)).toList.map (shownLine (some valid)) := by
  have hbare : ∀ value : String, String.ofList value.toList = value := fun _ => String.ofList_toList
  have hblank : Text.trimmed "" = "" := by decide
  rw [specificLine, raw, JobFieldLayout.setting?]
  cases config.specifics.find? layout.key with
  | none =>
    refine ⟨false, ?_⟩
    dsimp only
    rw [hblank]
    cases layout.style <;> rfl
  | some field =>
    refine ⟨field.valid, ?_⟩
    dsimp only
    cases layout.style with
    | cronSchedule => rfl
    | quoted => rfl
    | quotedOptional =>
      dsimp only
      split <;> rfl
    | bare =>
      dsimp only
      split
      · rfl
      · rw [Option.toList_some, List.map_singleton, shownLine, hbare]

theorem preamble_eq (config : JobConfig) :
    config.preamble = config.commonSettings.map (shownLine none) ++
      config.type.fields.flatMap config.specificLine := by
  rw [preamble, textLine_eq, textLine_eq, textLine_eq, commonSettings]
  simp only [List.map_append]
  cases config.gasLimit with
  | none =>
    cases config.forwardingAllowed with
    | none => rfl
    | some b => cases b <;> rfl
  | some n =>
    cases config.forwardingAllowed with
    | none => rfl
    | some b => cases b <;> rfl

theorem lines_preamble (config : JobConfig) :
    (config.preamble.flatMap fun line => line.text.toList ++ ['\n']) =
      config.settings.flatMap Setting.line := by
  have hshown : ∀ (valid : Option Bool) (settings : List Setting),
      (settings.map (shownLine valid)).flatMap (fun line => line.text.toList ++ ['\n']) =
        settings.flatMap Setting.line := by
    intro valid settings
    rw [List.flatMap_map]
    exact congrArg settings.flatMap (funext (toList_shownLine valid))
  have hfields : ((config.type.fields.flatMap config.specificLine).flatMap fun line =>
      line.text.toList ++ ['\n']) = (config.type.fields.flatMap fun layout =>
        (layout.setting? (config.raw layout.key)).toList).flatMap Setting.line := by
    rw [List.flatMap_assoc, List.flatMap_assoc]
    refine congrArg config.type.fields.flatMap (funext fun layout => ?_)
    obtain ⟨valid, hline⟩ := config.specificLine_eq layout
    rw [hline, hshown]
  rw [preamble_eq, List.flatMap_append, hshown, hfields, settings_eq, settingsFor,
    List.flatMap_append]

end JobConfig
end JobPipeline
