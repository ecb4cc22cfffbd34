import JobPipeline.Proofs.Job.SpecText

/-
What becomes of the preamble when it is read and written again.

All but the values without quotes are the same.  Such a value comes back as the
number in its plain form, if TOML reads the number at all: it refuses a leading zero
and what does not fit into 64 bits with a sign, and drops a plus sign.
-/
namespace JobPipeline

open Toml (Setting IsBareKey)

namespace JobConfig

variable {config : JobConfig}

theorem specifics_afterAll (config : JobConfig) (edits : List (String × String)) :
    (config.afterAll edits).specifics = config.specifics.insertAll
      (edits.map fun e => (e.1, ⟨e.2, config.type.allows e.1 e.2⟩)) := by
  induction edits generalizing config with
  | nil => rfl
  | cons edit edits ih => exact ih (config.setSpecific edit.1 edit.2)

theorem type_reread (config : JobConfig) : config.reread.type = config.type :=
  (type_afterAll config.readCommon config.rereadFields).trans (type_ofType config.type)

theorem shown_shown (s : Option String) : shown (shown s) = shown s := by
  cases s with
  | none => rfl
  | some s =>
    rw [shown, shown, Option.filter]
    split
    · next h => rw [Option.filter, if_pos h]
    · rfl

theorem commonSettings_reread (config : JobConfig) :
    config.reread.commonSettings = config.commonSettings := by
  have htype : config.readCommon.type = config.type := type_ofType config.type
  have hcommon : config.reread.commonSettings = config.readCommon.commonSettings := by
    rw [reread, afterAll_eq]
    rfl
  rw [hcommon, commonSettings, htype]
  show [quotedSetting "type" config.type.name, _] ++
    ((shown (shown config.name)).map (quotedSetting "name")).toList ++
    ((shown (shown config.externalId)).map (quotedSetting "externalJobId")).toList ++
    (config.gasLimit.map fun n => quotedSetting "gasLimit" (toString n)).toList ++
    ((shown (shown config.maxTaskDuration)).map (quotedSetting "maxTaskDuration")).toList ++
    (config.forwardingAllowed.map (truthSetting "forwardingAllowed")).toList = _
  rw [shown_shown, shown_shown, shown_shown, commonSettings]

theorem raw_reread {layout : JobFieldLayout} (h : layout ∈ config.type.fields) :
    config.reread.raw layout.key = layout.reread (config.raw layout.key) := by
  have hnodup : (config.type.fields.map JobFieldLayout.key).Nodup := by
    have hkeys := config.type.nodup_keys
    rw [JobType.keys] at hkeys
    exact (List.nodup_append.1 hkeys).2.1
  let field (layout : JobFieldLayout) : JobField :=
    let text := layout.reread (config.raw layout.key)
    ⟨text, config.readCommon.type.allows layout.key text⟩
  have hspecifics : config.reread.specifics = config.readCommon.specifics.insertAll
      (config.type.fields.map fun layout => (layout.key, field layout)) := by
    rw [reread, specifics_afterAll, rereadFields, List.map_map]
    rfl
  have hkeys : ((config.type.fields.map fun layout => (layout.key, field layout)).map
      Prod.fst).Nodup := by
    rw [List.map_map]
    exact hnodup
  rw [raw, hspecifics, Dict.find?_insertAll_of_mem hkeys
    (List.mem_map_of_mem (f := fun layout => (layout.key, field layout)) h)]

end JobConfig

namespace JobFieldLayout

variable {layout : JobFieldLayout} {raw : String}

/-- A quoted value is written again as it was. -/
theorem setting?_reread_of_ne (h : layout.style ≠ .bare) :
    layout.setting? (layout.reread raw) = layout.setting? raw := by
  have hreread : layout.reread raw = Text.trimmed raw := by
    rw [reread]
    split
    · next hstyle => exact absurd hstyle h
    · rfl
  rw [setting?, setting?, hreread, Text.trimmed_trimmed]
  split
  · rfl
  · rfl
  · rfl
  · next hstyle => exact absurd hstyle h

theorem setting?_of_number {n : Nat} (h : layout.style = .bare)
    (hn : Numeral.natural? Numeral.most64 (Text.trimmed raw) = some n) :
    layout.setting? raw = some ⟨layout.key, .integer n, (Text.trimmed raw).toList⟩ := by
  rw [setting?, h]
  dsimp only
  rw [if_neg (Numeral.ne_empty_of_natural? hn), number_of_natural? hn]

/-- A value without quotes is written again as a plain number. -/
theorem setting?_reread {n : Nat} (h : layout.style = .bare)
    (hn : Numeral.natural? Numeral.most64 (Text.trimmed raw) = some n) :
    layout.setting? (layout.reread raw) = some ⟨layout.key, .integer n, (toString n).toList⟩ := by
  have hreread : layout.reread raw = toString n := by
    rw [reread, h]
    dsimp only
    rw [number_of_natural? hn]
  have hplain : Numeral.natural? Numeral.most64 (Text.trimmed (toString n)) = some n := by
    rw [Numeral.trimmed_toString, Numeral.natural?_toString (Numeral.natural?_le hn)]
  rw [hreread, setting?_of_number h hplain, Numeral.trimmed_toString]

end JobFieldLayout

namespace JobConfig

variable {config : JobConfig}

/-- The settings are the same where each value without quotes is a plain number. -/
theorem settingsFor_reread {layouts : List JobFieldLayout}
    (hmem : ∀ layout ∈ layouts, layout ∈ config.type.fields)
    (h : ∀ layout ∈ layouts, layout.style = .bare →
      ∃ n, n < twoTo 63 ∧ Text.trimmed (config.raw layout.key) = toString n) :
    config.reread.settingsFor layouts = config.settingsFor layouts := by
  have hfields : ∀ layout ∈ layouts,
      (layout.setting? (config.reread.raw layout.key)).toList =
        (layout.setting? (config.raw layout.key)).toList := by
    intro layout hlayout
    rw [raw_reread (hmem layout hlayout)]
    by_cases hstyle : layout.style = .bare
    · obtain ⟨n, hlt, hplain⟩ := h layout hlayout hstyle
      have hle : n ≤ Numeral.most64 := Nat.le_trans (Nat.le_of_lt hlt) (by decide)
      have hn : Numeral.natural? Numeral.most64 (Text.trimmed (config.raw layout.key)) = some n := by
        rw [hplain, Numeral.natural?_toString hle]
      rw [JobFieldLayout.setting?_reread hstyle hn, JobFieldLayout.setting?_of_number hstyle hn, hplain]
    · rw [JobFieldLayout.setting?_reread_of_ne hstyle]
  rw [settingsFor, settingsFor, commonSettings_reread, List.flatMap_def, List.flatMap_def,
    List.map_congr_left hfields]

theorem settings_reread (h : ∀ layout ∈ config.type.fields, layout.style = .bare →
      ∃ n, n < twoTo 63 ∧ Text.trimmed (config.raw layout.key) = toString n) :
    config.reread.settings = config.settings := by
  rw [settings_eq, settings_eq, type_reread, settingsFor_reread (fun _ hlayout => hlayout) h]

end JobConfig

/-! ## Values without quotes -/

theorem isTomlNumber_toString {n : Nat} (hpos : 0 < n) (hlt : n < twoTo 63) :
    IsTomlNumber (toString n).toList := by
  have hhead := Numeral.head?_toDigits hpos
  have hdigits := Numeral.all_isDigit_toDigits n
  have hself := Numeral.ofDigits_toDigits n
  rw [Numeral.toList_toString]
  cases htext : Nat.toDigits 10 n with
  | nil => exact absurd htext Nat.toDigits_ne_nil
  | cons d ds =>
    rw [htext] at hhead hdigits hself
    exact ⟨[], d, ds, rfl, .inl rfl, hdigits, fun heq => hhead (congrArg some heq), hself ▸ hlt⟩

/-- A number that its rule accepts is a plain number of TOML, or one with a plus
sign, or refused by TOML. -/
theorem number_cases {s : String} {n : Nat} (h : Numeral.natural? Numeral.most64 s = some n)
    (hpos : 0 < n) :
    (n < twoTo 63 ∧ s = toString n) ∨
    (IsTomlNumber s.toList ∧ s.toList.head? = some '+') ∨
    ∃ c more, s.toList = c :: more ∧ Toml.OpensValue c ∧ ∀ below,
      ((Toml.simple? (c :: (more ++ '\n' :: below))).bind fun r => Toml.Scan.trailing r.2) = none := by
  obtain ⟨sign, ds, htext, hsign, hne, hdigits, hn, -⟩ := Numeral.natural?_eq_some h
  obtain ⟨d, ds, rfl⟩ := List.exists_cons_of_ne_nil hne
  by_cases hread : d ≠ '0' ∧ n < twoTo 63
  · obtain ⟨hzero, hlt⟩ := hread
    rcases hsign with rfl | rfl
    · refine .inl ⟨hlt, String.toList_inj.1 ?_⟩
      rw [htext, Numeral.toList_toString, ← hn, Numeral.toDigits_ofDigits hdigits hzero]
      rfl
    · exact .inr (.inl ⟨⟨['+'], d, ds, htext, .inr rfl, hdigits, hzero, hn ▸ hlt⟩, by rw [htext]; rfl⟩)
  · right
    right
    have hrefused : ∀ below, ((Toml.simple? (sign ++ (d :: ds ++ '\n' :: below))).bind fun r =>
        Toml.Scan.trailing r.2) = none := by
      intro below
      rw [Toml.simple?_digits hsign hdigits, Toml.digitsValue?]
      split
      · next hzero =>
        -- Behind the zero another digit is left, or the number would be zero.
        subst hzero
        cases ds with
        | nil =>
          have hnone : Numeral.ofDigits ['0'] = 0 := rfl
          omega
        | cons e ds =>
          rw [List.all_cons, List.all_cons, Bool.and_eq_true, Bool.and_eq_true] at hdigits
          exact Toml.Scan.trailing_digit hdigits.2.1 _
      · next hzero =>
        rw [if_neg fun hlt => hread ⟨hzero, hn ▸ hlt⟩]
        rfl
    obtain ⟨c, more, hcut, hc⟩ := exists_opensValue hsign hdigits
    refine ⟨c, more, htext.trans hcut, hc, fun below => ?_⟩
    have hwhole : sign ++ (d :: ds ++ '\n' :: below) = c :: (more ++ '\n' :: below) := by
      rw [← List.append_assoc, hcut]
      rfl
    rw [← hwhole]
    exact hrefused below

end JobPipeline
