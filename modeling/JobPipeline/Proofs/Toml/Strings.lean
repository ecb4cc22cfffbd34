import JobPipeline.Toml.Escape
import JobPipeline.Toml.Text

/-
Strings of the preamble are read back as TOML.

Between its quotes a basic string is a run of parts, each of which is one character or one
escape and stands for one character (`Spells`).  The reader takes such runs and no others
(`basic?_eq_some_iff`), so it can end a string at one place only, and an escaped text is
read back because each of its characters is written as one such part.
-/
namespace JobPipeline
namespace Toml

/-! ## What stands between the quotes -/

/-- The characters that stand for themselves: all but quotes, backslashes and controls, the
tab and the controls behind ASCII among those that do. -/
def Unescaped (c : Char) : Prop := c ≠ '"' ∧ c ≠ '\\' ∧ (c = '\t' ∨ (32 ≤ c.toNat ∧ c.toNat ≠ 127))

/-- The escapes of one letter, with the characters they stand for. -/
def letterEscapes : List (Char × Char) :=
  [('"', '"'), ('\\', '\\'), ('b', Char.ofNat 8), ('f', Char.ofNat 12), ('n', '\n'), ('r', '\r'),
    ('t', '\t')]

/-- One character, or one escape, and the character that it stands for. -/
inductive Spells : (part : List Char) → Char → Prop
  | plain {c : Char} : Unescaped c → Spells [c] c
  | letter {e c : Char} : (e, c) ∈ letterEscapes → Spells ['\\', e] c
  | short {a b c d x : Char} : Numeral.hexNumber? [a, b, c, d] = some x.toNat →
      Spells ['\\', 'u', a, b, c, d] x
  | long {a b c d e f g h x : Char} : Numeral.hexNumber? [a, b, c, d, e, f, g, h] = some x.toNat →
      Spells ['\\', 'U', a, b, c, d, e, f, g, h] x

/-- What stands between the quotes of a basic string, and the text that it stands for. -/
inductive Written : (inner text : List Char) → Prop
  | nil : Written [] []
  | cons {part inner text : List Char} {c : Char} : Spells part c → Written inner text →
      Written (part ++ inner) (c :: text)

/-! ## One step of reading -/

theorem basic?_quote (rest : List Char) : basic? ('"' :: rest) = some ([], rest) := by
  unfold basic?
  simp

theorem basic?_plain {c : Char} (hplain : isPlain c = true) (hslash : c ≠ '\\') (hquote : c ≠ '"')
    (rest : List Char) : basic? (c :: rest) = before (some c) (basic? rest) := by
  rw [basic?.eq_def]
  split
  · next h => cases h
  · next h => exact absurd (List.cons.inj h).1 hslash
  · next h => exact absurd (List.cons.inj h).1 hslash
  · next h => exact absurd (List.cons.inj h).1 hslash
  · next h =>
    obtain ⟨rfl, rfl⟩ := List.cons.inj h
    rw [if_neg hquote, hplain]
    simp [hslash]

theorem basic?_letter {e : Char} (hshort : e ≠ 'u') (hlong : e ≠ 'U') (rest : List Char) :
    basic? ('\\' :: e :: rest) = before (letterEscape? e) (basic? rest) := by
  rw [basic?.eq_def]
  split
  · next h => cases h
  · next h => exact absurd (List.cons.inj (List.cons.inj h).2).1 hshort
  · next h => exact absurd (List.cons.inj (List.cons.inj h).2).1 hlong
  · next h =>
    obtain ⟨rfl, rfl⟩ := List.cons.inj (List.cons.inj h).2
    rfl
  · next hnone h =>
    obtain ⟨rfl, rfl⟩ := List.cons.inj h
    exact absurd rfl (hnone e rest rfl)

theorem basic?_unicode (a b c d : Char) (rest : List Char) :
    basic? ('\\' :: 'u' :: a :: b :: c :: d :: rest) =
      before (character? [a, b, c, d]) (basic? rest) := by
  rw [basic?]

theorem basic?_longUnicode (a b c d e f g h : Char) (rest : List Char) :
    basic? ('\\' :: 'U' :: a :: b :: c :: d :: e :: f :: g :: h :: rest) =
      before (character? [a, b, c, d, e, f, g, h]) (basic? rest) := by
  rw [basic?]

theorem character?_eq_some_iff {digits : List Char} {c : Char} :
    character? digits = some c ↔ Numeral.hexNumber? digits = some c.toNat := by
  rw [character?, Option.bind_eq_some_iff]
  constructor
  · rintro ⟨n, hn, hc⟩
    split at hc
    · next hvalid =>
      cases hc
      rw [hn, Char.ofNat, dif_pos hvalid]
      rfl
    · cases hc
  · intro h
    have hvalid : c.toNat.isValidChar := c.valid
    exact ⟨c.toNat, h, by rw [if_pos hvalid, Char.ofNat_toNat]⟩

theorem letterEscape?_eq_some_iff {e c : Char} : letterEscape? e = some c ↔ (e, c) ∈ letterEscapes := by
  simp only [letterEscapes, List.mem_cons, List.not_mem_nil, or_false, Prod.mk.injEq]
  rw [letterEscape?]
  constructor
  · intro h
    split at h
    · next he =>
      cases h
      rcases he with rfl | rfl <;> simp
    repeat' split at h
    all_goals cases h
    all_goals simp_all
  · rintro (⟨rfl, rfl⟩ | ⟨rfl, rfl⟩ | ⟨rfl, rfl⟩ | ⟨rfl, rfl⟩ | ⟨rfl, rfl⟩ | ⟨rfl, rfl⟩ | ⟨rfl, rfl⟩) <;> rfl

theorem before_eq_some_iff {c : Option Char} {read : Option (List Char × List Char)} {text rest : List Char} :
    before c read = some (text, rest) ↔
      ∃ x inner, c = some x ∧ read = some (inner, rest) ∧ text = x :: inner := by
  constructor
  · intro h
    rw [before.eq_def] at h
    split at h
    · cases h
      exact ⟨_, _, rfl, rfl, rfl⟩
    · cases h
  · rintro ⟨x, inner, rfl, rfl, rfl⟩
    rfl

theorem isPlain_iff {c : Char} : isPlain c = true ↔ c = '\t' ∨ (32 ≤ c.toNat ∧ c.toNat ≠ 127) := by
  simp [isPlain]

/-- Each part is taken as a whole. -/
theorem Spells.basic? {part : List Char} {c : Char} (h : Spells part c) (rest : List Char) :
    basic? (part ++ rest) = before (some c) (Toml.basic? rest) := by
  cases h with
  | plain h => exact basic?_plain (isPlain_iff.2 h.2.2) h.2.1 h.1 rest
  | letter h =>
    have hnames : ∀ e ∈ letterEscapes, e.1 ≠ 'u' ∧ e.1 ≠ 'U' := by decide
    obtain ⟨hshort, hlong⟩ := hnames _ h
    rw [← letterEscape?_eq_some_iff.2 h]
    exact basic?_letter hshort hlong rest
  | short h =>
    rw [← character?_eq_some_iff.2 h]
    exact basic?_unicode ..
  | long h =>
    rw [← character?_eq_some_iff.2 h]
    exact basic?_longUnicode ..

/-- The reader takes what is written as the grammar has it up to the quote that closes it,
and nothing else. -/
theorem basic?_eq_some_iff {cs text rest : List Char} :
    basic? cs = some (text, rest) ↔ ∃ inner, Written inner text ∧ cs = inner ++ '"' :: rest := by
  constructor
  · intro h
    fun_induction basic? cs generalizing text with
    | case1 => cases h
    | case2 a b c d behind ih =>
      obtain ⟨x, text, hx, hread, rfl⟩ := before_eq_some_iff.1 h
      obtain ⟨inner, hinner, rfl⟩ := ih hread
      exact ⟨_, .cons (.short (character?_eq_some_iff.1 hx)) hinner, rfl⟩
    | case3 a b c d e f g h' behind ih =>
      obtain ⟨x, text, hx, hread, rfl⟩ := before_eq_some_iff.1 h
      obtain ⟨inner, hinner, rfl⟩ := ih hread
      exact ⟨_, .cons (.long (character?_eq_some_iff.1 hx)) hinner, rfl⟩
    | case4 e behind _ _ ih =>
      obtain ⟨x, text, hx, hread, rfl⟩ := before_eq_some_iff.1 h
      obtain ⟨inner, hinner, rfl⟩ := ih hread
      exact ⟨_, .cons (.letter (letterEscape?_eq_some_iff.1 hx)) hinner, rfl⟩
    | case5 behind =>
      cases h
      exact ⟨[], .nil, rfl⟩
    | case6 c behind _ _ _ hquote hplain ih =>
      obtain ⟨x, text, hx, hread, rfl⟩ := before_eq_some_iff.1 h
      obtain ⟨inner, hinner, rfl⟩ := ih hread
      cases hx
      rw [Bool.and_eq_true, isPlain_iff, decide_eq_true_eq] at hplain
      exact ⟨_, .cons (.plain ⟨hquote, hplain.2, hplain.1⟩) hinner, rfl⟩
    | case7 => cases h
  · rintro ⟨inner, hinner, rfl⟩
    induction hinner with
    | nil => exact basic?_quote rest
    | cons hpart _ ih => rw [List.append_assoc, hpart.basic?, ih]; rfl

/-! ## Escaped texts -/

theorem hexNumber?_fourHex {n : Nat} (h : n < 160) : Numeral.hexNumber? (Field.fourHex n) = some n := by
  have hall : ∀ n < 160, Numeral.hexNumber? (Field.fourHex n) = some n := by decide +kernel
  exact hall n h

theorem spells_escapeChar (c : Char) : Spells (escapeChar c) c := by
  rw [escapeChar]
  split
  · next h =>
    rcases h with rfl | rfl
    · exact .letter (by decide)
    · exact .letter (by decide)
  · next hmark =>
    split
    · next h =>
      subst h
      exact .letter (by decide)
    split
    · next h =>
      subst h
      exact .letter (by decide)
    split
    · next h =>
      subst h
      exact .letter (by decide)
    split
    · next hcontrol =>
      have hlt : c.toNat < 160 := by
        simp only [Text.isControl, Bool.or_eq_true, Bool.and_eq_true, decide_eq_true_eq] at hcontrol
        omega
      exact .short (hexNumber?_fourHex hlt)
    · next hcontrol =>
      simp only [Text.isControl, Bool.or_eq_true, Bool.and_eq_true, decide_eq_true_eq] at hcontrol
      exact .plain ⟨fun h => hmark (.inr h), fun h => hmark (.inl h), .inr ⟨by omega, by omega⟩⟩

theorem written_escape (cs : List Char) : Written (escape cs) cs := by
  induction cs with
  | nil => exact .nil
  | cons c cs ih => exact .cons (spells_escapeChar c) ih

theorem basic?_escape (cs rest : List Char) : basic? (escape cs ++ '"' :: rest) = some (cs, rest) :=
  basic?_eq_some_iff.2 ⟨_, written_escape cs, rfl⟩

theorem head?_escapeChar (c : Char) (rest : List Char) : (escapeChar c ++ rest).head? ≠ some '"' := by
  rw [escapeChar]
  split
  · simp
  · next hmark =>
    have hquote : c ≠ '"' := fun h => hmark (.inr h)
    split
    · simp
    split
    · simp
    split
    · simp
    split
    · simp
    · simpa using hquote

/-- A quoted text is one string, and no more of the text belongs to it. -/
theorem string?_escape (cs : List Char) {rest : List Char} (hrest : rest.head? ≠ some '"') :
    string? ('"' :: (escape cs ++ '"' :: rest)) = some (cs, rest) := by
  have hmarks : twoMarks? '"' (escape cs ++ '"' :: rest) = none := by
    cases cs with
    | nil =>
      cases rest with
      | nil => rfl
      | cons c rest =>
        have hc : c ≠ '"' := fun h => hrest (by rw [h]; rfl)
        show twoMarks? '"' ('"' :: c :: rest) = none
        rw [twoMarks?, if_neg fun h => hc h.2]
    | cons c cs =>
      have hhead := head?_escapeChar c (escape cs ++ '"' :: rest)
      rw [escape, List.flatMap_cons, ← escape, List.append_assoc]
      cases htext : escapeChar c ++ (escape cs ++ '"' :: rest) with
      | nil => rfl
      | cons d more =>
        have hd : d ≠ '"' := fun h => hhead (by rw [htext, h]; rfl)
        cases more with
        | nil => rfl
        | cons e more => rw [twoMarks?, if_neg fun h => hd h.1]
  rw [string?, if_pos rfl, hmarks]
  exact basic?_escape cs rest

end Toml
end JobPipeline
