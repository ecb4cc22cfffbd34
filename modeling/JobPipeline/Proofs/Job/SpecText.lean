import JobPipeline.Proofs.Document.Marks
import JobPipeline.Proofs.Import.Preamble

/-
The spec text of a job, cut where the import cuts it.

The text is the settings line by line, an empty line, and the pipeline text between
the line that opens it and three quotes.  A setting takes one line, for its text has
no line end, and none of them opens the pipeline text.
-/
namespace JobPipeline

open Toml (Setting IsBareKey)
open Import (tripleQuote openingLine)

/-! ## Settings on one line -/

theorem not_mem_escape (cs : List Char) : '\n' ∉ Toml.escape cs := by
  have hhex : ∀ n, Field.upperHexDigit n ≠ '\n' := by
    intro n
    have hall : ∀ k < 16, (Nat.digitChar k).toUpper ≠ '\n' := by decide
    exact hall (n % 16) (Nat.mod_lt n (by decide))
  have hchar : ∀ c, '\n' ∉ Toml.escapeChar c := by
    intro c
    rw [Toml.escapeChar]
    split
    · next h => rcases h with rfl | rfl <;> decide
    split
    · decide
    split
    · decide
    split
    · decide
    split
    · simp [Field.fourHex, (hhex _).symm]
    · next hline _ _ _ =>
      simpa using Ne.symm hline
  rw [Toml.escape, List.mem_flatMap]
  rintro ⟨c, -, hc⟩
  exact hchar c hc

theorem not_mem_quotedSetting (key s : String) : '\n' ∉ (quotedSetting key s).text := by
  have h := not_mem_escape s.toList
  simp [quotedSetting, h]

theorem not_mem_of_isBareKey {key : List Char} (h : IsBareKey key) : '\n' ∉ key := fun hmem =>
  absurd (List.all_eq_true.1 h.2 _ hmem) (by decide)

/-- The line of a setting without its end. -/
def Toml.Setting.front (s : Setting) : List Char := s.key.toList ++ ' ' :: '=' :: ' ' :: s.text

theorem line_eq_front (s : Setting) : s.line = s.front ++ ['\n'] := by
  rw [Setting.line, Setting.front]
  simp

/-- A key of a preamble begins with no blank, and not like the key of the pipeline text. -/
theorem JobType.head_of_mem {type : JobType} {key : String} (h : key ∈ type.keys) :
    ∃ c more, key.toList = c :: more ∧ Text.isBlank c = false ∧ c ≠ 'o' := by
  have hall : ∀ key ∈ type.keys,
      (key.toList.head?.any fun c => !Text.isBlank c && c != 'o') = true := by
    cases type <;> decide
  obtain ⟨c, hc, hchar⟩ := (Option.any_eq_true _ _).1 (hall key h)
  rw [Bool.and_eq_true, Bool.not_eq_true', bne_iff_ne] at hchar
  obtain ⟨more, hmore⟩ := List.head?_eq_some_iff.1 hc
  exact ⟨c, more, hmore, hchar.1, hchar.2⟩

theorem opensBody_front {type : JobType} {s : Setting} (h : s.key ∈ type.keys) :
    Import.opensBody (s.front ++ ['\n']) = false := by
  obtain ⟨c, more, hkey, hblank, hne⟩ := JobType.head_of_mem h
  have htext : s.front ++ ['\n'] = c :: (more ++ ' ' :: '=' :: ' ' :: s.text ++ ['\n']) := by
    rw [Setting.front, hkey]
    simp
  have hstart : Text.trimStart (s.front ++ ['\n']) = s.front ++ ['\n'] := by
    rw [htext]
    refine Text.trimStart_eq_self fun d hd => ?_
    rw [← Option.some.inj hd]
    exact hblank
  have hmark : Text.afterMark? Import.bodyKey (s.front ++ ['\n']) = none := by
    have hbody : Import.bodyKey = 'o' :: "bservationSource".toList := rfl
    rw [htext, hbody, Text.afterMark?, if_neg (Ne.symm hne)]
  rw [Import.opensBody, hstart, hmark]
  rfl

namespace JobConfig

variable {config : JobConfig}

theorem key_mem_keys {s : Setting} (h : s ∈ config.settings) : s.key ∈ config.type.keys := by
  obtain ⟨⟨key, o⟩, htold, rfl⟩ := List.mem_filterMap.1 h
  rw [← keys_told, key_of_told htold]
  exact List.mem_map_of_mem (f := Prod.fst) htold

theorem not_mem_commonSettings : ∀ s ∈ config.commonSettings, '\n' ∉ s.text := by
  intro s hs
  rcases commonSettings_cases hs with ⟨key, t, -, rfl⟩ | rfl | ⟨key, b, -, rfl⟩
  · exact not_mem_quotedSetting key t
  · exact (by decide : '\n' ∉ ['1'])
  · cases b
    · exact (by decide : '\n' ∉ "false".toList)
    · exact (by decide : '\n' ∉ "true".toList)

theorem not_mem_settings (hconfig : config.Configured) (hvalid : config.isValid = true) :
    ∀ s ∈ config.settings, '\n' ∉ s.text := by
  intro s hs
  rw [settings_eq] at hs
  rcases mem_settingsFor hs with hs | ⟨layout, hlayout, hs⟩
  · exact not_mem_commonSettings s hs
  rcases JobFieldLayout.setting?_cases hs with ⟨t, rfl⟩ | ⟨hstyle, rfl⟩
  · exact not_mem_quotedSetting _ t
  · obtain ⟨n, hn, -⟩ := hconfig.natural?_of_bare hvalid hlayout hstyle
    obtain ⟨sign, ds, htext, hsign, -, hdigits, -⟩ := Numeral.natural?_eq_some hn
    dsimp only
    rw [htext, List.mem_append, not_or]
    constructor
    · rcases hsign with rfl | rfl <;> decide
    · exact fun hmem => absurd (List.all_eq_true.1 hdigits _ hmem) (by decide)

/-- The lines above the pipeline text, without their ends. -/
def linesAbove (config : JobConfig) : List (List Char) := config.settings.map Setting.front ++ [[]]

theorem ended_linesAbove (config : JobConfig) :
    (config.linesAbove.flatMap fun line => line ++ ['\n']) =
      config.settings.flatMap Setting.line ++ ['\n'] := by
  have hline : Setting.line = fun s => s.front ++ ['\n'] := funext line_eq_front
  rw [linesAbove, List.flatMap_append, List.flatMap_map, hline]
  rfl

theorem not_mem_linesAbove (hconfig : config.Configured) (hvalid : config.isValid = true) :
    ∀ line ∈ config.linesAbove, '\n' ∉ line := by
  intro line hmem
  rcases List.mem_append.1 hmem with hmem | hmem
  · obtain ⟨s, hs, rfl⟩ := List.mem_map.1 hmem
    have hkey := not_mem_of_isBareKey (JobType.isBareKey_of_mem (key_mem_keys hs))
    have htext := not_mem_settings hconfig hvalid s hs
    simp [Setting.front, hkey, htext]
  · rw [List.mem_singleton.1 hmem]
    exact List.not_mem_nil

theorem opensBody_linesAbove (config : JobConfig) :
    ∀ line ∈ config.linesAbove, Import.opensBody (line ++ ['\n']) = false := by
  intro line hmem
  rcases List.mem_append.1 hmem with hmem | hmem
  · obtain ⟨s, hs, rfl⟩ := List.mem_map.1 hmem
    exact opensBody_front (key_mem_keys hs)
  · rw [List.mem_singleton.1 hmem]
    decide

end JobConfig

namespace Job

/-- The spec text: the settings, an empty line, and the pipeline text in three quotes. -/
theorem toList_text (job : Job) :
    job.compile.text.toList = job.config.settings.flatMap Setting.line ++ ['\n'] ++
      (openingLine ++ '\n' :: (Document.ended job.graph.bodyLines ++ tripleQuote)) := by
  have hpreamble : Document.ended job.config.preamble = job.config.settings.flatMap Setting.line :=
    job.config.lines_preamble
  have hmiddle : Document.ended [⟨"", none, false⟩, ⟨"observationSource = \"\"\"", none, false⟩] =
      '\n' :: (openingLine ++ ['\n']) := rfl
  have hquotes : ("\"\"\"" : String).toList = tripleQuote := rfl
  rw [Document.text, Document.toList_joined, compile, Document.chars_concat, Document.ended_append,
    Document.ended_append, hpreamble, hmiddle, hquotes]
  simp

/-- A pipeline text without three quotes is lifted out of the spec. -/
theorem split_text {job : Job} (hconfig : job.config.Configured)
    (hvalid : job.config.isValid = true) (h : NoTriple (Document.ended job.graph.bodyLines)) :
    Import.split job.compile.text.toList = (job.config.settings.flatMap Setting.line ++ ['\n'],
      some (Document.ended job.graph.bodyLines)) := by
  have hlast : (Document.ended job.graph.bodyLines).getLast? ≠ some '"' := by
    by_cases hnil : job.graph.bodyLines = []
    · rw [hnil]
      decide
    · rw [Document.ended_eq hnil, List.getLast?_concat]
      decide
  rw [toList_text, ← JobConfig.ended_linesAbove]
  exact Import.split_of_not_infix (JobConfig.not_mem_linesAbove hconfig hvalid)
    job.config.opensBody_linesAbove hlast ((noTriple_iff _).1 h)

/-- A pipeline text with three quotes is cut there. -/
theorem split_text_of_triple {job : Job} (hconfig : job.config.Configured)
    (hvalid : job.config.isValid = true) {inner rest : List Char}
    (h : Text.aroundMark? tripleQuote (Document.ended job.graph.bodyLines) = some (inner, rest)) :
    (Import.split job.compile.text.toList).2 = some inner := by
  rw [toList_text, ← JobConfig.ended_linesAbove]
  exact Import.split_of_infix (JobConfig.not_mem_linesAbove hconfig hvalid)
    job.config.opensBody_linesAbove h

end Job
end JobPipeline
