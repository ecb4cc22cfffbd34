import Mathlib.Data.List.Nodup
import JobPipeline.Import
import JobPipeline.Proofs.Job.Preamble
import JobPipeline.Proofs.Job.Rules
import JobPipeline.Proofs.Number.Digits
import JobPipeline.Proofs.Text.Blank

/-
The preamble of a job is read back.

Text values are read as they are.  A value without quotes was taken as a number by
the rule of its field, and is read as a number of TOML, which has no leading zeros
and fits into 64 bits with a sign; only then is the preamble a table at all, and
the field is set to that number in its plain form.
-/
namespace JobPipeline

open Toml (Setting IsBareKey)

/-! ## Settings are readable -/

theorem readable_quotedSetting {key : String} (h : IsBareKey key.toList) (s : String) :
    (quotedSetting key s).Readable where
  key := h
  opens := ⟨'"', _, rfl, by decide, by decide, by decide⟩
  reads := by
    intro below
    have hread : Toml.string? ('"' :: (Toml.escape s.toList ++ '"' :: '\n' :: below)) =
        some (s.toList, '\n' :: below) := Toml.string?_escape s.toList (by simp)
    have htext : (quotedSetting key s).text ++ '\n' :: below =
        '"' :: (Toml.escape s.toList ++ '"' :: '\n' :: below) := by
      simp [quotedSetting]
    rw [htext, Toml.simple?, hread]
    show some (Toml.Value.string (String.ofList s.toList), _) = _
    rw [String.ofList_toList]
    rfl
  settled := rfl

theorem readable_truthSetting {key : String} (h : IsBareKey key.toList) (b : Bool) :
    (truthSetting key b).Readable where
  key := h
  opens := by
    cases b with
    | false => exact ⟨'f', _, rfl, by decide, by decide, by decide⟩
    | true => exact ⟨'t', _, rfl, by decide, by decide, by decide⟩
  reads := by
    intro below
    cases b <;> rfl
  settled := rfl

/-- A positive whole number of TOML, perhaps with a plus sign. -/
def IsTomlNumber (cs : List Char) : Prop :=
  ∃ sign d ds, cs = sign ++ d :: ds ∧ (sign = [] ∨ sign = ['+']) ∧
    (d :: ds).all Char.isDigit = true ∧ d ≠ '0' ∧ Numeral.ofDigits (d :: ds) < twoTo 63

theorem exists_opensValue {sign ds : List Char} {d : Char} (hsign : sign = [] ∨ sign = ['+'])
    (hdigits : (d :: ds).all Char.isDigit = true) :
    ∃ c more, sign ++ d :: ds = c :: more ∧ Toml.OpensValue c := by
  have hd : d.isDigit = true := List.all_eq_true.1 hdigits d List.mem_cons_self
  have hne : ∀ c : Char, c.isDigit = false → d ≠ c := by
    rintro c hc rfl
    rw [hd] at hc
    cases hc
  rcases hsign with rfl | rfl
  · refine ⟨d, ds, rfl, hne _ (by decide), hne _ (by decide), ?_⟩
    simp [Toml.isSpace, hne ' ' (by decide), hne '\t' (by decide)]
  · exact ⟨'+', _, rfl, by decide, by decide, by decide⟩

theorem readable_number {key : String} (h : IsBareKey key.toList) {sign ds : List Char} {d : Char}
    (hsign : sign = [] ∨ sign = ['+']) (hdigits : (d :: ds).all Char.isDigit = true)
    (hzero : d ≠ '0') (hlt : Numeral.ofDigits (d :: ds) < twoTo 63) :
    (⟨key, .integer (Numeral.ofDigits (d :: ds)), sign ++ d :: ds⟩ : Setting).Readable where
  key := h
  opens := exists_opensValue hsign hdigits
  reads := by
    intro below
    rw [List.append_assoc, Toml.simple?_digits hsign hdigits, Toml.digitsValue?, if_neg hzero,
      if_pos hlt]
  settled := rfl

namespace JobConfig

theorem readable_commonSettings (config : JobConfig) : ∀ s ∈ config.commonSettings, s.Readable := by
  intro s hs
  rcases commonSettings_cases hs with ⟨key, t, hkey, rfl⟩ | rfl | ⟨key, b, hkey, rfl⟩
  · exact readable_quotedSetting hkey t
  · exact @readable_number "schemaVersion" (by decide) [] [] '1' (.inl rfl) (by decide) (by decide)
      (by decide)
  · exact readable_truthSetting hkey b

end JobConfig

namespace JobFieldLayout

variable {layout : JobFieldLayout} {raw : String} {s : Setting}

/-- The number that a value stands for is the one that TOML reads in it. -/
theorem number_eq {sign ds : List Char} {d : Char} (h : (Text.trimmed raw).toList = sign ++ d :: ds)
    (hsign : sign = [] ∨ sign = ['+']) (hdigits : (d :: ds).all Char.isDigit = true)
    (hlt : Numeral.ofDigits (d :: ds) < twoTo 63) : number raw = Numeral.ofDigits (d :: ds) := by
  have hle : Numeral.ofDigits (d :: ds) ≤ Numeral.most64 :=
    Nat.le_trans (Nat.le_of_lt hlt) (by decide)
  have hnumber := Numeral.natural?_of_digits h hsign (List.cons_ne_nil d ds) hdigits hle
  rw [number, hnumber]
  rfl

theorem readable_setting? (hkey : IsBareKey layout.key.toList) (h : layout.setting? raw = some s)
    (hnumber : layout.style = .bare → IsTomlNumber (Text.trimmed raw).toList) : s.Readable := by
  rcases setting?_cases h with ⟨t, rfl⟩ | ⟨hstyle, rfl⟩
  · exact readable_quotedSetting hkey t
  · obtain ⟨sign, d, ds, htext, hsign, hdigits, hzero, hlt⟩ := hnumber hstyle
    rw [htext, number_eq htext hsign hdigits hlt]
    exact readable_number hkey hsign hdigits hzero hlt

end JobFieldLayout

/-! ## The table -/

theorem sublist_keys {told : List (String × Option Setting)}
    (hsame : ∀ key s, (key, some s) ∈ told → s.key = key) :
    ((told.filterMap Prod.snd).map Setting.key).Sublist (told.map Prod.fst) := by
  induction told with
  | nil => exact List.Sublist.refl _
  | cons entry told ih =>
    obtain ⟨k, o⟩ := entry
    have hrest := ih fun key s hs => hsame key s (List.mem_cons_of_mem _ hs)
    cases o with
    | none => exact hrest.cons k
    | some s =>
      rw [List.filterMap_cons, List.map_cons]
      show (s.key :: _).Sublist (k :: _)
      rw [hsame k s List.mem_cons_self]
      exact hrest.cons_cons k

/-- What the entry of a key says is found under the key, or nothing is. -/
theorem find?_filterMap {told : List (String × Option Setting)}
    (hkeys : (told.map Prod.fst).Nodup)
    (hsame : ∀ key s, (key, some s) ∈ told → s.key = key) {key : String} {s? : Option Setting}
    (h : (key, s?) ∈ told) :
    (Dict.ofList ((told.filterMap Prod.snd).map Setting.member)).find? key = s?.map Setting.value := by
  have hfst : ((told.filterMap Prod.snd).map Setting.member).map Prod.fst =
      (told.filterMap Prod.snd).map Setting.key := by
    rw [List.map_map]
    rfl
  cases s? with
  | some s =>
    have hmem : s ∈ told.filterMap Prod.snd := List.mem_filterMap.2 ⟨_, h, rfl⟩
    rw [← hsame key s h]
    refine Dict.find?_ofList_of_mem ?_ (List.mem_map_of_mem (f := Setting.member) hmem)
    rw [hfst]
    exact (sublist_keys hsame).nodup hkeys
  | none =>
    refine Dict.find?_ofList_of_not_mem fun hmem => ?_
    rw [hfst] at hmem
    obtain ⟨s, hs, rfl⟩ := List.mem_map.1 hmem
    obtain ⟨⟨k, o⟩, htold, rfl⟩ := List.mem_filterMap.1 hs
    have hsome : (s.key, some s) ∈ told := by
      rw [hsame k s htold]
      exact htold
    have hboth := List.inj_on_of_nodup_map hkeys hsome h rfl
    cases (Prod.mk.inj hboth).2

namespace JobConfig

/-- The table that the preamble is read as. -/
def table (config : JobConfig) : Import.Table := Dict.ofList (config.settings.map Setting.member)

theorem nodup_told (config : JobConfig) : (config.told.map Prod.fst).Nodup := by
  rw [keys_told]
  exact config.type.nodup_keys

theorem nodup_settings (config : JobConfig) : (config.settings.map Setting.key).Nodup :=
  (sublist_keys fun _ _ => key_of_told).nodup config.nodup_told

theorem find?_table {config : JobConfig} {key : String} {s? : Option Setting}
    (h : (key, s?) ∈ config.told) : config.table.find? key = s?.map Setting.value :=
  find?_filterMap config.nodup_told (fun _ _ => key_of_told) h

theorem find?_table_text {config : JobConfig} {key : String} {s? : Option String}
    (h : (key, s?.map (quotedSetting key)) ∈ config.told) :
    config.table.find? key = s?.map Toml.Value.string := by
  rw [find?_table h, Option.map_map]
  rfl

theorem typeOf_table (config : JobConfig) : Import.typeOf config.table = .ok config.type := by
  have htype : JobType.ofText? config.type.name = some config.type := by
    cases config.type <;> decide
  have hfind : config.table.find? "type" = some (.string config.type.name) :=
    find?_table (List.mem_cons_self)
  rw [Import.typeOf, hfind, Option.bind_some, Import.text?]
  dsimp only
  rw [htype]

theorem unknownKeys_table (config : JobConfig) : Import.unknownKeys config.type config.table = [] := by
  have hknown : ∀ key ∈ config.type.keys, (Import.commonKeys.contains key ||
      config.type.fields.any fun layout => layout.key = key) = true := by
    cases config.type <;> decide
  refine List.filter_eq_nil_iff.2 fun key hkey => ?_
  obtain ⟨⟨k, v⟩, hentry, rfl⟩ := List.mem_map.1 hkey
  have hmem : k ∈ config.type.keys := by
    rw [← keys_told]
    refine Decidable.byContradiction fun hnot => ?_
    have hfound := (config.table.mem_entries_iff k v).1 hentry
    have hnone : config.table.find? k = none := by
      refine Dict.find?_ofList_of_not_mem fun hmem => hnot ?_
      rw [List.map_map] at hmem
      obtain ⟨s, hs, rfl⟩ := List.mem_map.1 hmem
      obtain ⟨⟨key, o⟩, htold, rfl⟩ := List.mem_filterMap.1 hs
      have hsame : s.key = key := key_of_told htold
      exact List.mem_map.2 ⟨_, htold, hsame.symm⟩
    rw [hnone] at hfound
    cases hfound
  rw [hknown k hmem]
  decide

/-! ## The configuration -/

theorem field_some {α : Type} {table : Import.Table} {key : String} {value : Toml.Value} {a : α}
    {read : Toml.Value → Option α} (h : table.find? key = some value) (hread : read value = some a)
    (expected : String) : Import.field table key expected read = (some a, []) := by
  rw [Import.field, h]
  dsimp only
  rw [hread]

theorem field_none {α : Type} {table : Import.Table} {key : String} (h : table.find? key = none)
    (expected : String) (read : Toml.Value → Option α) :
    Import.field table key expected read = (none, []) := by
  rw [Import.field, h]

/-- A field is read where all its values are. -/
theorem field_map {α : Type} {table : Import.Table} {key : String} {a? : Option α}
    {shown : α → Toml.Value} {read : Toml.Value → Option α} (h : table.find? key = a?.map shown)
    (hread : ∀ a, a? = some a → read (shown a) = some a) (expected : String) :
    Import.field table key expected read = (a?, []) := by
  cases a? with
  | none => exact field_none h expected read
  | some a => exact field_some h (hread a rfl) expected

/-- The configuration with the fields that all jobs have, as it is read. -/
def readCommon (config : JobConfig) : JobConfig :=
  { ofType config.type with
    name := shown config.name
    externalId := shown config.externalId
    gasLimit := config.gasLimit
    maxTaskDuration := shown config.maxTaskDuration
    forwardingAllowed := config.forwardingAllowed }

theorem readPreamble_table {config : JobConfig}
    (h : ∀ n, config.gasLimit = some n → n ≤ Numeral.most64) :
    Import.readPreamble config.table (ofType config.type) = (config.readCommon, []) := by
  have htext : ∀ (key : String) (s? : Option String),
      (key, s?.map (quotedSetting key)) ∈ config.told →
      Import.field config.table key "a string" Import.text? = (s?, []) :=
    fun key s? hmem => field_map (find?_table_text hmem) (fun _ _ => rfl) _
  have hname := htext "name" (shown config.name) (by simp [told])
  have hid := htext "externalJobId" (shown config.externalId) (by simp [told])
  have hduration := htext "maxTaskDuration" (shown config.maxTaskDuration) (by simp [told])
  have hgas : Import.field config.table "gasLimit" "a non-negative integer" Import.limit? =
      (config.gasLimit, []) := by
    have hfind : config.table.find? "gasLimit" =
        (config.gasLimit.map fun n => quotedSetting "gasLimit" (toString n)).map Setting.value :=
      find?_table (by simp [told])
    rw [Option.map_map] at hfind
    refine field_map hfind (fun n hn => ?_) _
    show Numeral.natural? Numeral.most64 (Text.trimmed (toString n)) = some n
    rw [Numeral.trimmed_toString, Numeral.natural?_toString (h n hn)]
  have hforwarding : Import.field config.table "forwardingAllowed" "a boolean" Import.bool? =
      (config.forwardingAllowed, []) := by
    have hfind : config.table.find? "forwardingAllowed" =
        (config.forwardingAllowed.map (truthSetting "forwardingAllowed")).map Setting.value :=
      find?_table (by simp [told])
    rw [Option.map_map] at hfind
    exact field_map hfind (fun _ _ => rfl) _
  rw [Import.readPreamble, hname, hid, hgas, hduration, hforwarding]
  rfl

end JobConfig

/-! ## The fields of the job type -/

namespace JobFieldLayout

/-- The text that a field is set to when it is read back. -/
def reread (layout : JobFieldLayout) (raw : String) : String :=
  match layout.style with
  | .bare => toString (number raw)
  | _ => Text.trimmed raw

end JobFieldLayout

theorem withoutZone_append (raw : String) :
    Import.withoutZone ("CRON_TZ=UTC " ++ Text.trimmed raw) = Text.trimmed raw := by
  have htext : ("CRON_TZ=UTC " ++ Text.trimmed raw).toList =
      Import.zonePrefix ++ ' ' :: Text.trim raw.toList := by
    rw [String.toList_append, Text.trimmed, String.toList_ofList, String.toList_ofList]
    rfl
  have hstart : Text.trimStart (' ' :: Text.trim raw.toList) = Text.trim raw.toList := by
    have hskip : Text.trimStart (' ' :: Text.trim raw.toList) =
        Text.trimStart (Text.trim raw.toList) := rfl
    rw [hskip, Text.trimStart_eq_self (Text.trimmed_trim _).1]
  rw [Import.withoutZone, htext, Text.afterMark?_eq_some.2 rfl]
  show String.ofList (Text.trimStart (' ' :: Text.trim raw.toList)) = _
  rw [hstart, Text.trimmed]

namespace JobType

variable {raw : String}

/-- A value that is allowed is written, and the text that is read for it is allowed too. -/
theorem reread_of_allows {type : JobType} {layout : JobFieldLayout} (h : layout ∈ type.fields)
    (hallows : type.allows layout.key raw = true) :
    (∃ s, layout.setting? raw = some s ∧
      Import.specificText? layout.style s.value = some (layout.reread raw)) ∧
    type.allows layout.key (layout.reread raw) = true := by
  rcases field_cases h hallows with ⟨rfl, rfl, hmost⟩ | ⟨rfl, rfl, haddress⟩ | ⟨rfl, rfl, hamount⟩ |
    ⟨rfl, rfl, n, hn, hpos⟩
  · refine ⟨⟨_, rfl, congrArg some (withoutZone_append raw)⟩, ?_⟩
    show JobType.cron.allows "schedule" (Text.trimmed raw) = true
    rw [allows_schedule, Text.trimmed, String.toList_ofList, Text.words_trim]
    simpa using hmost
  · refine ⟨⟨_, rfl, rfl⟩, ?_⟩
    show JobType.directRequest.allows "contractAddress" (Text.trimmed raw) = true
    rw [allows_address, isAddress, Text.trimmed, String.toList_ofList, Text.trim_trim]
    exact haddress
  · have hne : Text.trimmed raw ≠ "" := by
      intro heq
      rw [heq] at hamount
      exact absurd hamount (by decide)
    refine ⟨⟨_, if_neg hne, rfl⟩, ?_⟩
    show JobType.directRequest.allows "minContractPaymentLinkJuels" (Text.trimmed raw) = true
    rw [allows_payment, Text.trimmed_trimmed, hamount]
  · refine ⟨⟨_, if_neg (Numeral.ne_empty_of_natural? hn), rfl⟩, ?_⟩
    show JobType.directRequest.allows "minIncomingConfirmations"
      (toString (JobFieldLayout.number raw)) = true
    rw [allows_confirmations, JobFieldLayout.number_of_natural? hn, Numeral.trimmed_toString,
      Numeral.natural?_toString (Numeral.natural?_le hn)]
    exact decide_eq_true hpos

end JobType

namespace JobConfig

variable {config : JobConfig}

/-- The settings of the fields of the type, as they are read. -/
def rereadFields (config : JobConfig) : List (String × String) :=
  config.type.fields.map fun layout => (layout.key, layout.reread (config.raw layout.key))

/-- The configuration that is read back. -/
def reread (config : JobConfig) : JobConfig := config.readCommon.afterAll config.rereadFields

theorem readSpecifics_eq {table : Import.Table} {text : JobFieldLayout → String}
    {layouts : List JobFieldLayout} {config : JobConfig}
    (h : ∀ layout ∈ layouts, ∃ v, table.find? layout.key = some v ∧
      Import.specificText? layout.style v = some (text layout) ∧
      config.type.allows layout.key (text layout) = true) :
    Import.readSpecifics table layouts config =
      (config.afterAll (layouts.map fun layout => (layout.key, text layout)), []) := by
  induction layouts generalizing config with
  | nil => rfl
  | cons layout layouts ih =>
    obtain ⟨⟨v, hfind, htext, hallows⟩, hrest⟩ := List.forall_mem_cons.1 h
    have hstep : Import.readSpecific table config layout =
        (config.setSpecific layout.key (text layout), []) := by
      rw [Import.readSpecific, hfind]
      dsimp only
      rw [htext]
      dsimp only
      rw [if_pos hallows]
    rw [Import.readSpecifics, hstep]
    dsimp only
    rw [@ih (config.setSpecific layout.key (text layout)) hrest]
    rfl

/-- The preamble is read back without a warning. -/
theorem readConfig_table (hconfig : config.Configured) (hvalid : config.isValid = true) :
    Import.readConfig config.table config.type = (config.reread, []) := by
  have hspecifics : Import.readSpecifics config.table config.type.fields config.readCommon =
      (config.reread, []) := by
    refine @readSpecifics_eq config.table (fun layout => layout.reread (config.raw layout.key))
      config.type.fields config.readCommon fun layout hlayout => ?_
    obtain ⟨⟨s, hs, htext⟩, hallows⟩ :=
      JobType.reread_of_allows hlayout (hconfig.allows_raw hvalid hlayout)
    have htold : (layout.key, some s) ∈ config.told := by
      rw [told, ← hs]
      exact List.mem_append_right _ (List.mem_map_of_mem hlayout)
    have htype : config.readCommon.type = config.type := type_ofType config.type
    rw [htype]
    exact ⟨s.value, find?_table htold, htext, hallows⟩
  rw [Import.readConfig, readPreamble_table hconfig.gasLimit]
  dsimp only
  rw [hspecifics, unknownKeys_table]
  rfl

end JobConfig
end JobPipeline
