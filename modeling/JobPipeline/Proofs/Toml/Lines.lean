import JobPipeline.Proofs.Dict
import JobPipeline.Proofs.Toml.Numbers
import JobPipeline.Proofs.Toml.Strings

/-
Lines of a key and a value, read as a TOML table.

The keys are bare and the values without parts, so a line is read by one step: the
key, the value, and the end of the line.  A run of such lines with keys of their
own puts its values behind the table as they come; one line that cannot be read
refuses the text.

A text can be a value whatever its characters are.  Nothing in its literal ends the line,
and nothing but the last quote ends the literal: an escaped text has no control character,
and its quotes and backslashes stand in escapes.  So the literal can be read in one way
only, and its line gives the key the text.
-/
namespace JobPipeline
namespace Toml

namespace Scan

variable {α β : Type}

theorem bind_of {scan : Scan α} {next : α → Scan β} {cs rest : List Char} {a : α}
    (h : scan cs = some (a, rest)) : (scan >>= next) cs = next a rest := by
  show (scan cs).bind _ = _
  rw [h]
  rfl

theorem mark_cons (c : Char) (cs : List Char) : mark c (c :: cs) = some ((), cs) := by
  rw [mark, Calendar.after?, if_pos rfl]
  rfl

theorem spaces_cons {c : Char} (h : isSpace c = false) (cs : List Char) :
    spaces (c :: cs) = some ((), c :: cs) := by
  rw [spaces, List.dropWhile_cons, h]
  rfl

theorem spaces_space {c : Char} (h : isSpace c = false) (cs : List Char) :
    spaces (' ' :: c :: cs) = some ((), c :: cs) := by
  have hspace : spaces (' ' :: c :: cs) = spaces (c :: cs) := rfl
  rw [hspace, spaces_cons h]

/-- What is left of a value does not end the line. -/
theorem trailing_digit {c : Char} (h : c.isDigit = true) (cs : List Char) :
    trailing (c :: cs) = none := by
  have hne : ∀ d : Char, d.isDigit = false → c ≠ d := by
    rintro d hd rfl
    rw [h] at hd
    cases hd
  have hspace : isSpace c = false := by
    simp [isSpace, hne ' ' (by decide), hne '\t' (by decide)]
  have hcomment : option comment (c :: cs) = some (none, c :: cs) := by
    have hnone : comment (c :: cs) = none := by
      rw [comment, Calendar.after?, if_neg (hne '#' (by decide))]
      rfl
    rw [option, hnone]
  have hending : ending (c :: cs) = none := by
    rw [ending, if_neg (List.cons_ne_nil c cs), lineEnd.eq_def]
    split
    · next heq => exact absurd (List.cons.inj heq).1 (hne _ (by decide))
    · next heq => exact absurd (List.cons.inj heq).1 (hne _ (by decide))
    · rfl
  rw [trailing, bind_of (spaces_cons hspace cs), bind_of hcomment, hending]

end Scan

/-- A key without quotes. -/
def IsBareKey (key : List Char) : Prop := key ≠ [] ∧ key.all isKeyChar = true

instance (key : List Char) : Decidable (IsBareKey key) := inferInstanceAs (Decidable (_ ∧ _))

theorem isKeyChar_ne {c d : Char} (h : isKeyChar c = true) (hd : isKeyChar d = false) : c ≠ d := by
  rintro rfl
  rw [h] at hd
  cases hd

theorem key?_append {key : List Char} (h : IsBareKey key) (rest : List Char) :
    key? (key ++ ' ' :: rest) = some (key, ' ' :: rest) := by
  obtain ⟨hne, hall⟩ := h
  have hchars : ∀ c ∈ key, isKeyChar c = true := List.all_eq_true.1 hall
  have htake : (key ++ ' ' :: rest).takeWhile isKeyChar = key := by
    rw [List.takeWhile_append_of_pos hchars]
    exact List.append_nil key
  have hdrop : (key ++ ' ' :: rest).dropWhile isKeyChar = ' ' :: rest := by
    rw [List.dropWhile_append_of_pos hchars]
    rfl
  cases key with
  | nil => exact absurd rfl hne
  | cons c key =>
    have hc : isKeyChar c = true := hchars c List.mem_cons_self
    rw [key?.eq_def]
    split
    · next heq => exact absurd (List.cons.inj heq).1 (isKeyChar_ne hc (by decide))
    · next heq => exact absurd (List.cons.inj heq).1 (isKeyChar_ne hc (by decide))
    · rw [htake, hdrop]

theorem dottedKey_append {key : List Char} (h : IsBareKey key) (rest : List Char) :
    dottedKey (key ++ ' ' :: '=' :: rest) = some ([String.ofList key], '=' :: rest) := by
  obtain ⟨c, more, rfl⟩ := List.exists_cons_of_ne_nil h.1
  have hc : isKeyChar c = true := List.all_eq_true.1 h.2 c List.mem_cons_self
  have hspace : isSpace c = false := by
    simp [isSpace, isKeyChar_ne hc (by decide : isKeyChar ' ' = false),
      isKeyChar_ne hc (by decide : isKeyChar '\t' = false)]
  have hkey : Scan.of key? (c :: more ++ ' ' :: '=' :: rest) =
      some (c :: more, ' ' :: '=' :: rest) := key?_append h ('=' :: rest)
  show parts (78 + 1) _ = _
  rw [parts, List.cons_append, Scan.bind_of (Scan.spaces_cons hspace _), ← List.cons_append]
  rw [Scan.bind_of hkey]
  rw [Scan.bind_of (Scan.spaces_space (by decide) rest)]
  rfl

/-- The first character of a value without brackets. -/
def OpensValue (c : Char) : Prop := c ≠ '[' ∧ c ≠ '\x7b' ∧ isSpace c = false

theorem value_eq_simple? {c : Char} (h : OpensValue c) (fuel depth : Nat) (cs : List Char) :
    value (fuel + 1) depth (c :: cs) = simple? (c :: cs) := by
  rw [value]
  rw [Scan.bind_of (rfl : Scan.peek (c :: cs) = some (some c, c :: cs)), List.head?_cons]
  refine congrFun (g := Scan.of simple?) ?_ (c :: cs)
  split
  · next heq => exact absurd (Option.some.inj heq) h.1
  · next heq => exact absurd (Option.some.inj heq) h.2.1
  · next heq => exact absurd (Option.some.inj heq) h.1
  · next heq => exact absurd (Option.some.inj heq) h.2.1
  · rfl

/-- One step: a key, its value and the end of the line. -/
theorem line_pair {key : List Char} (hkey : IsBareKey key) {c : Char} (hc : OpensValue c)
    (cs : List Char) (fuel : Nat) (b : Building) :
    line (fuel + 1) b (key ++ ' ' :: '=' :: ' ' :: c :: cs) =
      (simple? (c :: cs)).bind fun r => (Scan.trailing r.2).bind fun s =>
        (b.assign [String.ofList key] r.1).map fun b => (b, s.2) := by
  have hdotted := dottedKey_append hkey (' ' :: c :: cs)
  obtain ⟨k, more, rfl⟩ := List.exists_cons_of_ne_nil hkey.1
  have hk : isKeyChar k = true := List.all_eq_true.1 hkey.2 k List.mem_cons_self
  rw [List.cons_append] at hdotted ⊢
  have hline : line (fuel + 1) b (k :: (more ++ ' ' :: '=' :: ' ' :: c :: cs)) = (do
      let path ← dottedKey
      Scan.mark '='
      Scan.spaces
      let v ← value (fuel + 1) mostParts
      Scan.trailing
      Scan.of fun cs => (b.assign path v).map fun b => (b, cs) : Scan Building)
        (k :: (more ++ ' ' :: '=' :: ' ' :: c :: cs)) := by
    rw [line, Scan.bind_of (rfl : Scan.peek (k :: _) = some (some k, k :: _)), List.head?_cons]
    refine congrFun ?_ _
    split
    · next heq => exact absurd (Option.some.inj heq) (isKeyChar_ne hk (by decide))
    · next heq => exact absurd (Option.some.inj heq) (isKeyChar_ne hk (by decide))
    · next heq => exact absurd (Option.some.inj heq) (isKeyChar_ne hk (by decide))
    · next heq => exact absurd (Option.some.inj heq) (isKeyChar_ne hk (by decide))
    · rfl
  rw [hline, Scan.bind_of hdotted, Scan.bind_of (Scan.mark_cons '=' _),
    Scan.bind_of (Scan.spaces_space hc.2.2 cs)]
  show (value (fuel + 1) mostParts (c :: cs)).bind _ = _
  rw [value_eq_simple? hc]
  rfl

/-! ## A run of lines -/

/-- A key and its value, with the text of the value. -/
structure Setting where
  key : String
  value : Value
  text : List Char

namespace Setting

/-- The line of a setting, up to its end. -/
def line (s : Setting) : List Char := s.key.toList ++ ' ' :: '=' :: ' ' :: (s.text ++ ['\n'])

/-- The text of the value is read back wherever it ends a line. -/
structure Readable (s : Setting) : Prop where
  key : IsBareKey s.key.toList
  opens : ∃ c more, s.text = c :: more ∧ OpensValue c
  reads : ∀ below, simple? (s.text ++ '\n' :: below) = some (s.value, '\n' :: below)
  settled : s.value.settled? = some s.value

def entry (s : Setting) : String × Entry := (s.key, .value s.value)

def member (s : Setting) : String × Value := (s.key, s.value)

end Setting

theorem dropWhile_isSpace_key {key : List Char} (h : IsBareKey key) (rest : List Char) :
    (key ++ rest).dropWhile isSpace = key ++ rest := by
  obtain ⟨c, more, rfl⟩ := List.exists_cons_of_ne_nil h.1
  have hc : isKeyChar c = true := List.all_eq_true.1 h.2 c List.mem_cons_self
  have hspace : isSpace c = false := by
    simp [isSpace, isKeyChar_ne hc (by decide : isKeyChar ' ' = false),
      isKeyChar_ne hc (by decide : isKeyChar '\t' = false)]
  rw [List.cons_append, List.dropWhile_cons, hspace]
  rfl

/-- One line of a run, whatever follows it. -/
theorem lines_key {key : List Char} (hkey : IsBareKey key) {c : Char} (hc : OpensValue c)
    (cs : List Char) (fuel : Nat) (b : Building) :
    lines (fuel + 1) b (key ++ ' ' :: '=' :: ' ' :: c :: cs) =
      ((simple? (c :: cs)).bind fun r => (Scan.trailing r.2).bind fun s =>
        (b.assign [String.ofList key] r.1).map fun b => (b, s.2)).bind fun r =>
          lines fuel r.1 r.2 := by
  have hline := line_pair hkey hc cs (2 * (key ++ ' ' :: '=' :: ' ' :: c :: cs).length + 1) b
  rw [lines, dropWhile_isSpace_key hkey]
  split
  · next heq => exact absurd (List.append_eq_nil_iff.1 heq).1 hkey.1
  · rw [hline]
    split
    · next hnone => rw [hnone]; rfl
    · next hsome => rw [hsome]; rfl

/-- A line that cannot be read refuses the text. -/
theorem lines_refused {key : List Char} (hkey : IsBareKey key) {c : Char} (hc : OpensValue c)
    {cs : List Char} (h : ((simple? (c :: cs)).bind fun r => Scan.trailing r.2) = none) (fuel : Nat)
    (b : Building) : lines (fuel + 1) b (key ++ ' ' :: '=' :: ' ' :: c :: cs) = none := by
  rw [lines_key hkey hc]
  cases hvalue : simple? (c :: cs) with
  | none => rfl
  | some r =>
    rw [hvalue] at h
    have hend : Scan.trailing r.2 = none := h
    show (((Scan.trailing r.2).bind _).bind _) = none
    rw [hend]
    rfl

theorem lines_setting {s : Setting} (h : s.Readable) {tree : Tree} (hnew : tree.lookup s.key = none)
    (rest : List Char) (fuel : Nat) :
    lines (fuel + 1) ⟨tree, []⟩ (s.line ++ rest) = lines fuel ⟨tree ++ [s.entry], []⟩ rest := by
  obtain ⟨c, more, htext, hc⟩ := h.opens
  have hreads := h.reads rest
  have hassign : Building.assign ⟨tree, []⟩ [s.key] s.value = some ⟨tree ++ [s.entry], []⟩ := by
    show ((if true && (tree.lookup s.key).isNone then _ else none).map _ : Option Building) = _
    rw [hnew]
    rfl
  have hline : s.line ++ rest = s.key.toList ++ ' ' :: '=' :: ' ' :: c :: (more ++ '\n' :: rest) := by
    rw [Setting.line, htext]
    simp
  rw [htext, List.cons_append] at hreads
  rw [hline, lines_key h.key hc, hreads, String.ofList_toList]
  show (((Building.assign ⟨tree, []⟩ [s.key] s.value).map _).bind _) = _
  rw [hassign]
  rfl

/-- A run of lines puts its values behind the table, in their order. -/
theorem lines_settings {settings : List Setting} (h : ∀ s ∈ settings, s.Readable) {tree : Tree}
    (hnew : ∀ s ∈ settings, tree.lookup s.key = none)
    (hkeys : (settings.map Setting.key).Nodup) (rest : List Char) (fuel : Nat) :
    lines (settings.length + fuel) ⟨tree, []⟩ (settings.flatMap Setting.line ++ rest) =
      lines fuel ⟨tree ++ settings.map Setting.entry, []⟩ rest := by
  induction settings generalizing tree with
  | nil =>
    rw [List.map_nil, List.append_nil, List.length_nil, Nat.zero_add]
    rfl
  | cons s settings ih =>
    obtain ⟨hs, hrest⟩ := List.forall_mem_cons.1 h
    rw [List.map_cons, List.nodup_cons] at hkeys
    have hstep := lines_setting hs (hnew s List.mem_cons_self) (settings.flatMap Setting.line ++ rest)
      (settings.length + fuel)
    have hnext : ∀ t ∈ settings, (tree ++ [s.entry]).lookup t.key = none := by
      intro t ht
      have hne : t.key ≠ s.key := fun heq => hkeys.1 (heq ▸ List.mem_map_of_mem ht)
      have hbeq : (t.key == s.key) = false := beq_false_of_ne hne
      rw [List.lookup_append, hnew t (List.mem_cons_of_mem s ht), Setting.entry, List.lookup_cons, hbeq]
      rfl
    rw [List.flatMap_cons, List.append_assoc, List.length_cons,
      show settings.length + 1 + fuel = settings.length + fuel + 1 by omega, hstep,
      ih hrest hnext hkeys.2, List.map_cons, List.append_assoc, List.singleton_append]

/-! ## The table -/

theorem finish?_settings {settings : List Setting} (h : ∀ s ∈ settings, s.Readable) :
    Tree.finish? (settings.map Setting.entry) = some (Dict.ofList (settings.map Setting.member)) := by
  have hmembers : finishMembers (settings.map Setting.entry) = settings.map Setting.member := by
    induction settings with
    | nil => rfl
    | cons s settings ih =>
      rw [List.map_cons, List.map_cons, Setting.entry, finishMembers,
        ih fun s hs => h s (List.mem_cons_of_mem _ hs), Entry.finish]
      rfl
  have hsettled : Value.settledMembers? (settings.map Setting.member) =
      some (settings.map Setting.member) := by
    clear hmembers
    induction settings with
    | nil => rfl
    | cons s settings ih =>
      obtain ⟨hs, hrest⟩ := List.forall_mem_cons.1 h
      rw [List.map_cons, Setting.member, Value.settledMembers?, hs.settled, ih hrest]
  rw [Tree.finish?, hmembers, hsettled]
  rfl

theorem afterOrderMark_key {key : List Char} (h : IsBareKey key) (rest : List Char) :
    afterOrderMark (key ++ rest) = key ++ rest := by
  obtain ⟨c, more, rfl⟩ := List.exists_cons_of_ne_nil h.1
  have hc : isKeyChar c = true := List.all_eq_true.1 h.2 c List.mem_cons_self
  rw [List.cons_append, afterOrderMark, if_neg]
  intro hmark
  have hself : c = Char.ofNat 0xFEFF := by rw [← hmark, Char.ofNat_toNat]
  exact isKeyChar_ne hc (by decide) hself

/-- A text of lines is read, line by line. -/
theorem read?_eq {first : Setting} {settings : List Setting}
    (h : ∀ s ∈ first :: settings, s.Readable)
    (hkeys : ((first :: settings).map Setting.key).Nodup) (rest : List Char) :
    ∃ fuel, rest.length ≤ fuel ∧
      read? (String.ofList ((first :: settings).flatMap Setting.line ++ rest)) =
        (lines fuel ⟨(first :: settings).map Setting.entry, []⟩ rest).bind fun b => b.tree.finish? := by
  have hfuel : ∀ settings : List Setting, settings.length ≤ (settings.flatMap Setting.line).length := by
    intro settings
    induction settings with
    | nil => exact Nat.le_refl _
    | cons s settings ih =>
      rw [List.flatMap_cons, List.length_append, List.length_cons, Setting.line]
      simp only [List.length_append, List.length_cons]
      omega
  obtain ⟨k, hk⟩ := Nat.exists_eq_add_of_le (hfuel (first :: settings))
  have hmark : afterOrderMark ((first :: settings).flatMap Setting.line ++ rest) =
      (first :: settings).flatMap Setting.line ++ rest := by
    have hkey := afterOrderMark_key (h first List.mem_cons_self).key
      (' ' :: '=' :: ' ' :: (first.text ++ ['\n']) ++ (settings.flatMap Setting.line ++ rest))
    rw [List.flatMap_cons, Setting.line]
    simpa using hkey
  have hlines := @lines_settings (first :: settings) h [] (fun _ _ => rfl) hkeys rest
    (k + rest.length)
  refine ⟨k + rest.length, Nat.le_add_left _ _, ?_⟩
  have hlength : ((first :: settings).flatMap Setting.line ++ rest).length =
      (first :: settings).length + (k + rest.length) := by
    rw [List.length_append, hk, Nat.add_assoc]
  rw [read?, String.toList_ofList, hmark, hlength]
  show (lines _ ⟨[], []⟩ _).bind _ = _
  rw [hlines]
  rfl

/-- Lines of settings and an empty line are read as the table of the settings. -/
theorem read?_settings {first : Setting} {settings : List Setting}
    (h : ∀ s ∈ first :: settings, s.Readable)
    (hkeys : ((first :: settings).map Setting.key).Nodup) :
    read? (String.ofList ((first :: settings).flatMap Setting.line ++ ['\n'])) =
      some (Dict.ofList ((first :: settings).map Setting.member)) := by
  obtain ⟨_ | fuel, hfuel, hread⟩ := read?_eq h hkeys ['\n']
  · exact absurd hfuel (Nat.not_succ_le_zero 0)
  have hblank : ∀ b : Building, lines (fuel + 1) b ['\n'] = some b := by
    intro b
    have hend : lines fuel b [] = some b := by
      cases fuel <;> rfl
    exact hend
  rw [hread, hblank]
  exact finish?_settings h

/-- A line that cannot be read refuses the whole text. -/
theorem read?_refused {first : Setting} {settings : List Setting}
    (h : ∀ s ∈ first :: settings, s.Readable)
    (hkeys : ((first :: settings).map Setting.key).Nodup) {key : List Char} (hkey : IsBareKey key)
    {c : Char} (hc : OpensValue c) {cs : List Char}
    (hrefused : ((simple? (c :: cs)).bind fun r => Scan.trailing r.2) = none) :
    read? (String.ofList ((first :: settings).flatMap Setting.line ++
      (key ++ ' ' :: '=' :: ' ' :: c :: cs))) = none := by
  obtain ⟨_ | fuel, hfuel, hread⟩ := read?_eq h hkeys (key ++ ' ' :: '=' :: ' ' :: c :: cs)
  · rw [List.length_append, List.length_cons] at hfuel
    omega
  rw [hread, lines_refused hkey hc hrefused]
  rfl

/-! ## Texts as values -/

theorem isControl_of_mem_escapeChar {c d : Char} (h : d ∈ escapeChar c) : Text.isControl d = false := by
  have hdigit : ∀ n, Text.isControl (Field.upperHexDigit n) = false := by
    have hall : ∀ m < 16, Text.isControl (Nat.digitChar m).toUpper = false := by decide
    exact fun n => hall (n % 16) (Nat.mod_lt n (by decide))
  have hletter : ∀ e, Text.isControl e = false → d ∈ ['\\', e] → Text.isControl d = false := by
    intro e he hd
    rcases List.mem_pair.1 hd with rfl | rfl
    · rfl
    · exact he
  rw [escapeChar] at h
  split at h
  · next hmark =>
    refine hletter c ?_ h
    rcases hmark with rfl | rfl <;> rfl
  split at h
  · exact hletter 'n' rfl h
  split at h
  · exact hletter 'r' rfl h
  split at h
  · exact hletter 't' rfl h
  split at h
  · simp only [Field.fourHex, List.mem_cons, List.not_mem_nil, or_false] at h
    rcases h with rfl | rfl | rfl | rfl | rfl | rfl
    · rfl
    · rfl
    · exact hdigit _
    · exact hdigit _
    · exact hdigit _
    · exact hdigit _
  · next hcontrol =>
    rw [List.mem_singleton.1 h]
    exact Bool.eq_false_iff.2 hcontrol

/-- A run of parts that a quote closes is told by the text that it begins, and so are the
text it stands for and what is behind the quote. -/
theorem Written.unique {inner inner' text text' rest rest' : List Char} (h : Written inner text)
    (h' : Written inner' text') (heq : inner ++ '"' :: rest = inner' ++ '"' :: rest') :
    inner = inner' ∧ text = text' ∧ rest = rest' := by
  have hread : basic? (inner ++ '"' :: rest) = some (text, rest) := basic?_eq_some_iff.2 ⟨inner, h, rfl⟩
  have hread' : basic? (inner' ++ '"' :: rest') = some (text', rest') :=
    basic?_eq_some_iff.2 ⟨inner', h', rfl⟩
  rw [heq, hread'] at hread
  cases hread
  exact ⟨List.append_cancel_right heq, rfl, rfl⟩

/-- A line of a key and a string gives the key the string, and takes no more than its end. -/
theorem line_escape {key : List Char} (hkey : IsBareKey key) (cs : List Char) {eol : List Char}
    (heol : eol = ['\n'] ∨ eol = ['\r', '\n']) (below : List Char) (fuel : Nat) (b : Building) :
    line (fuel + 1) b (key ++ ' ' :: '=' :: ' ' :: '"' :: (escape cs ++ '"' :: (eol ++ below))) =
      (b.assign [String.ofList key] (.string (String.ofList cs))).map fun b => (b, below) := by
  have hend : Scan.trailing (eol ++ below) = some ((), below) := by
    rcases heol with rfl | rfl <;> rfl
  have hclosed : (eol ++ below).head? ≠ some '"' := by
    rcases heol with rfl | rfl <;> simp
  have hvalue : simple? ('"' :: (escape cs ++ '"' :: (eol ++ below))) =
      some (.string (String.ofList cs), eol ++ below) := by
    rw [simple?, string?_escape cs hclosed]
  have hopens : OpensValue '"' := ⟨by decide, by decide, rfl⟩
  rw [line_pair hkey hopens, hvalue, Option.bind_some, hend, Option.bind_some]

/-- An escaped text has no control character and is a run of the parts of a basic string.
No other run of them that a quote closes begins at the same place.  So between quotes it is
read back, unless a third quote follows, and on a line of the preamble it is the value. -/
theorem quoted_escape (cs : List Char) :
    (∀ c ∈ escape cs, Text.isControl c = false) ∧ Written (escape cs) cs ∧
    (∀ inner text rest behind, Written inner text → inner ++ '"' :: behind = escape cs ++ '"' :: rest →
      inner = escape cs ∧ text = cs ∧ behind = rest) ∧
    (∀ rest : List Char, rest.head? ≠ some '"' →
      string? ('"' :: (escape cs ++ '"' :: rest)) = some (cs, rest)) ∧
    ∀ key eol : List Char, IsBareKey key → (eol = ['\n'] ∨ eol = ['\r', '\n']) → ∀ below fuel b,
      line (fuel + 1) b (key ++ ' ' :: '=' :: ' ' :: '"' :: (escape cs ++ '"' :: (eol ++ below))) =
        (b.assign [String.ofList key] (.string (String.ofList cs))).map fun b => (b, below) := by
  refine ⟨fun d hd => ?_, written_escape cs, fun inner text rest behind hinner heq => ?_,
    fun rest hrest => string?_escape cs hrest,
    fun key eol hkey heol below fuel b => line_escape hkey cs heol below fuel b⟩
  · obtain ⟨c, -, hc⟩ := List.mem_flatMap.1 hd
    exact isControl_of_mem_escapeChar hc
  · exact hinner.unique (written_escape cs) heq

/-- A quote, a backslash, each kind of control character, and digits behind an escape that
could be taken for a part of it. -/
def trickyText : List Char :=
  ['"', '\\', '\n', '\r', '\t', Char.ofNat 0, Char.ofNat 7, '4', '1', Char.ofNat 127, Char.ofNat 133, 'é']

theorem quoted_escape_trickyText :
    escape trickyText = "\\\"\\\\\\n\\r\\t\\u0000\\u000741\\u007F\\u0085é".toList ∧
      string? ('"' :: (escape trickyText ++ '"' :: '\n' :: ['"'])) = some (trickyText, ['\n', '"']) ∧
      ∀ b, line 1 b ("name".toList ++ ' ' :: '=' :: ' ' :: '"' :: (escape trickyText ++ '"' ::
          (['\r', '\n'] ++ ['"']))) =
        (b.assign ["name"] (.string (String.ofList trickyText))).map fun b => (b, ['"']) := by
  obtain ⟨-, -, -, hstring, hline⟩ := quoted_escape trickyText
  exact ⟨by decide +kernel, hstring ['\n', '"'] (by decide),
    fun b => hline "name".toList ['\r', '\n'] (by decide) (.inr rfl) ['"'] 0 b⟩

end Toml
end JobPipeline
