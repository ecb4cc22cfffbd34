import JobPipeline.Toml.Reader

/-
Whole numbers that end a line, read as TOML.

A run of digits is neither a date nor a number with a point or an exponent, so
what is read is a whole number.  It is the number written if that has no leading
zero and fits into 64 bits with a sign; a leading zero is a number of its own, and
what is too large is none.
-/
namespace JobPipeline
namespace Toml

open Numeral (ofDigits)

/-- Digits up to the end of a line. -/
def DigitLine (below cs : List Char) : Prop :=
  ∃ ds : List Char, ds.all Char.isDigit = true ∧ cs = ds ++ '\n' :: below

section Digits

variable {below cs : List Char}

theorem digitLine_append {ds : List Char} (h : ds.all Char.isDigit = true) :
    DigitLine below (ds ++ '\n' :: below) := ⟨ds, h, rfl⟩

/-- A line of digits begins with a digit or with its end. -/
theorem DigitLine.head {c : Char} (h : DigitLine below cs) (hc : cs.head? = some c) :
    c.isDigit = true ∨ c = '\n' := by
  obtain ⟨ds, hds, rfl⟩ := h
  cases ds with
  | nil => exact .inr (Option.some.inj hc).symm
  | cons d ds =>
    rw [← Option.some.inj hc]
    exact .inl (List.all_eq_true.1 hds d List.mem_cons_self)

theorem DigitLine.head_ne {c : Char} (h : DigitLine below cs) (hdigit : c.isDigit = false)
    (hline : c ≠ '\n') : cs.head? ≠ some c := by
  intro hc
  rcases h.head hc with hd | hd
  · rw [hdigit] at hd
    cases hd
  · exact hline hd

theorem DigitLine.tail {d : Char} {ds : List Char} (h : (d :: ds).all Char.isDigit = true) :
    DigitLine below (ds ++ '\n' :: below) := by
  rw [List.all_cons, Bool.and_eq_true] at h
  exact digitLine_append h.2

/-! ## No date and no time -/

theorem after?_eq_none {c : Char} (h : cs.head? ≠ some c) : Calendar.after? c cs = none := by
  cases cs with
  | nil => rfl
  | cons d cs =>
    have hne : d ≠ c := fun heq => h (by rw [heq]; rfl)
    rw [Calendar.after?, if_neg hne]

/-- A number of a fixed length leaves a line of digits. -/
theorem DigitLine.fixed? {places n : Nat} {rest : List Char} (h : DigitLine below cs)
    (hread : Calendar.fixed? places cs = some (n, rest)) : DigitLine below rest := by
  obtain ⟨ds, hds, rfl⟩ := h
  rw [Calendar.fixed?] at hread
  split at hread
  · next htake =>
    cases hread
    have hle : places ≤ ds.length := by
      refine Nat.le_of_not_lt fun hlt => ?_
      -- Otherwise the end of the line would be among the digits.
      have hmem : '\n' ∈ (ds ++ '\n' :: below).take places := by
        obtain ⟨k, rfl⟩ := Nat.exists_eq_add_of_lt hlt
        rw [List.take_append, show ds.length + k + 1 - ds.length = k + 1 by omega, List.take_succ_cons]
        exact List.mem_append_right _ List.mem_cons_self
      exact absurd (List.all_eq_true.1 htake.2 _ hmem) (by decide)
    rw [List.drop_append_of_le_length hle]
    refine digitLine_append (List.all_eq_true.2 fun c hc => ?_)
    exact List.all_eq_true.1 hds c (List.mem_of_mem_drop hc)
  · cases hread

theorem fixed?_eq_none {places : Nat} {c : Char} (h : c.isDigit = false) (rest : List Char) :
    Calendar.fixed? (places + 1) (c :: rest) = none := by
  rw [Calendar.fixed?, if_neg]
  rintro ⟨-, hall⟩
  rw [List.take_succ_cons, List.all_cons, h] at hall
  cases hall

/-- No mark stands behind a number of a fixed length. -/
theorem DigitLine.after?_fixed? {places n : Nat} {rest : List Char} (h : DigitLine below cs)
    (hread : Calendar.fixed? places cs = some (n, rest)) {c : Char} (hdigit : c.isDigit = false)
    (hline : c ≠ '\n') : Calendar.after? c rest = none :=
  after?_eq_none ((h.fixed? hread).head_ne hdigit hline)

theorem DigitLine.moment? (h : DigitLine below cs) : Calendar.moment? cs = none := by
  have hdate : Calendar.date? cs = none := by
    rw [Calendar.date?]
    cases hread : Calendar.fixed? 4 cs with
    | none => rfl
    | some result =>
      show (Calendar.after? '-' result.2).bind _ = none
      rw [h.after?_fixed? hread (by decide) (by decide)]
      rfl
  have htime : Calendar.time? cs = none := by
    rw [Calendar.time?]
    cases hread : Calendar.fixed? 2 cs with
    | none => rfl
    | some result =>
      show (Calendar.after? ':' result.2).bind _ = none
      rw [h.after?_fixed? hread (by decide) (by decide)]
      rfl
  rw [Calendar.moment?, hdate, htime]
  rfl

theorem moment?_sign (rest : List Char) : Calendar.moment? ('+' :: rest) = none := by
  have hdate : Calendar.date? ('+' :: rest) = none := by
    rw [Calendar.date?, fixed?_eq_none (by decide)]
    rfl
  have htime : Calendar.time? ('+' :: rest) = none := by
    rw [Calendar.time?, fixed?_eq_none (by decide)]
    rfl
  rw [Calendar.moment?, hdate, htime]
  rfl

/-! ## No point and no exponent -/

theorem DigitLine.decimalPart? (h : DigitLine below cs) : decimalPart? cs = none := by
  have hexponent : exponent? cs = none := by
    cases cs with
    | nil => rfl
    | cons c cs =>
      rw [exponent?, if_neg]
      rintro (rfl | rfl)
      · exact h.head_ne (c := 'e') (by decide) (by decide) rfl
      · exact h.head_ne (c := 'E') (by decide) (by decide) rfl
  rw [Toml.decimalPart?.eq_def]
  split
  · exact absurd rfl (h.head_ne (c := '.') (by decide) (by decide))
  · rw [hexponent]
    rfl

/-! ## The whole part -/

theorem digitsBehind_append {ds : List Char} (h : ds.all Char.isDigit = true) :
    digitsBehind Char.isDigit (ds ++ '\n' :: below) = (ds, '\n' :: below) := by
  induction ds with
  | nil => cases below <;> rfl
  | cons d ds ih =>
    rw [List.all_cons, Bool.and_eq_true] at h
    cases ds with
    | nil =>
      show digitsBehind Char.isDigit (d :: '\n' :: below) = _
      rw [digitsBehind, if_pos h.1, ← List.nil_append ('\n' :: below), ih rfl]
      rfl
    | cons e ds =>
      show digitsBehind Char.isDigit (d :: e :: (ds ++ '\n' :: below)) = _
      rw [digitsBehind, if_pos h.1, ← List.cons_append, ih h.2]

theorem wholeDigits?_zero (rest : List Char) : wholeDigits? ('0' :: rest) = some (['0'], rest) := rfl

theorem wholeDigits?_append {d : Char} {ds : List Char} (h : (d :: ds).all Char.isDigit = true)
    (hzero : d ≠ '0') :
    wholeDigits? (d :: ds ++ '\n' :: below) = some (d :: ds, '\n' :: below) := by
  rw [List.all_cons, Bool.and_eq_true] at h
  rw [List.cons_append, wholeDigits?.eq_def]
  split
  · next heq => exact absurd (List.cons.inj heq).1 hzero
  · rw [digits?, if_pos h.1, digitsBehind_append h.2]

end Digits

/-! ## Values -/

theorem sign_append {signed : List Char} (h : signed = [] ∨ signed = ['+']) {d : Char}
    (hd : d.isDigit = true) (rest : List Char) :
    sign (signed ++ d :: rest) = (false, d :: rest) := by
  rcases h with rfl | rfl
  · have hminus : d ≠ '-' := by
      rintro rfl
      exact absurd hd (by decide)
    have hplus : d ≠ '+' := by
      rintro rfl
      exact absurd hd (by decide)
    rw [List.nil_append, sign.eq_def]
    split
    · next h => exact absurd (List.cons.inj h).1 hminus
    · next h => exact absurd (List.cons.inj h).1 hplus
    · rfl
  · rfl

theorem string?_eq_none {c : Char} (hdouble : c ≠ '"') (hsingle : c ≠ '\'') (rest : List Char) :
    string? (c :: rest) = none := by
  rw [string?, if_neg hdouble, if_neg hsingle]

theorem truth?_eq_none {c : Char} (htrue : c ≠ 't') (hfalse : c ≠ 'f') (rest : List Char) :
    truth? (c :: rest) = none := by
  rw [truth?.eq_def]
  split
  · next h => exact absurd (List.cons.inj h).1 htrue
  · next h => exact absurd (List.cons.inj h).1 hfalse
  · rfl

/-- The value that a run of digits has: a leading zero stands alone, and what
follows it is left. -/
def digitsValue? (d : Char) (ds rest : List Char) : Option (Value × List Char) :=
  if d = '0' then some (.integer 0, ds ++ rest)
  else if ofDigits (d :: ds) < twoTo 63 then some (.integer (ofDigits (d :: ds)), rest)
  else none

/-- The digits are in no other base. -/
theorem integer?_append {signed : List Char} (hsigned : signed = [] ∨ signed = ['+']) {d : Char}
    {ds below : List Char} (h : (d :: ds).all Char.isDigit = true) :
    (integer? (signed ++ (d :: ds ++ '\n' :: below))).map
      (fun r => (Value.integer r.1, r.2)) = digitsValue? d ds ('\n' :: below) := by
  have hd : d.isDigit = true := List.all_eq_true.1 h d List.mem_cons_self
  have hsign := sign_append hsigned hd (ds ++ '\n' :: below)
  have hbase : ∀ mark : Char, mark.isDigit = false → mark ≠ '\n' → ∀ rest,
      signed ++ d :: (ds ++ '\n' :: below) ≠ '0' :: mark :: rest := by
    intro mark hdigit hline rest heq
    have htail : DigitLine below (ds ++ '\n' :: below) := .tail h
    rcases hsigned with rfl | rfl
    · exact htail.head_ne hdigit hline (congrArg List.head? (List.cons.inj heq).2)
    · exact absurd (List.cons.inj heq).1 (by decide)
  have hdecimal : integer? (signed ++ (d :: ds ++ '\n' :: below)) =
      (wholeDigits? (d :: ds ++ '\n' :: below)).bind fun r =>
        if ofDigits r.1 < twoTo 63 then some ((ofDigits r.1 : Int), r.2) else none := by
    rw [List.cons_append, integer?.eq_def]
    split
    · next heq => exact absurd heq (hbase 'x' (by decide) (by decide) _)
    · next heq => exact absurd heq (hbase 'o' (by decide) (by decide) _)
    · next heq => exact absurd heq (hbase 'b' (by decide) (by decide) _)
    · rw [hsign]
      dsimp only
      cases wholeDigits? (d :: (ds ++ '\n' :: below)) with
      | none => rfl
      | some r => rfl
  rw [hdecimal, digitsValue?]
  by_cases hzero : d = '0'
  · subst hzero
    rw [if_pos rfl, List.cons_append, wholeDigits?_zero]
    rfl
  · rw [if_neg hzero, wholeDigits?_append h hzero, Option.bind_some]
    dsimp only
    split
    · rfl
    · rfl

theorem real?_append {signed : List Char} (hsigned : signed = [] ∨ signed = ['+']) {d : Char}
    {ds below : List Char} (h : (d :: ds).all Char.isDigit = true) :
    real? (signed ++ (d :: ds ++ '\n' :: below)) = none := by
  have hd : d.isDigit = true := List.all_eq_true.1 h d List.mem_cons_self
  rw [List.cons_append, real?, sign_append hsigned hd]
  dsimp only
  by_cases hzero : d = '0'
  · subst hzero
    rw [wholeDigits?_zero]
    dsimp only
    rw [(DigitLine.tail h).decimalPart?]
  · rw [← List.cons_append, wholeDigits?_append h hzero]
    dsimp only
    have hend : DigitLine below ('\n' :: below) := ⟨[], rfl, rfl⟩
    rw [hend.decimalPart?]

/-- A whole number that ends a line, read as a value. -/
theorem simple?_digits {signed : List Char} (hsigned : signed = [] ∨ signed = ['+']) {d : Char}
    {ds below : List Char} (h : (d :: ds).all Char.isDigit = true) :
    simple? (signed ++ (d :: ds ++ '\n' :: below)) = digitsValue? d ds ('\n' :: below) := by
  have hd : d.isDigit = true := List.all_eq_true.1 h d List.mem_cons_self
  have hmoment : Calendar.moment? (signed ++ (d :: ds ++ '\n' :: below)) = none := by
    rcases hsigned with rfl | rfl
    · exact (digitLine_append h).moment?
    · exact moment?_sign _
  have hwords : string? (signed ++ (d :: ds ++ '\n' :: below)) = none ∧
      truth? (signed ++ (d :: ds ++ '\n' :: below)) = none := by
    rcases hsigned with rfl | rfl
    · have hne : ∀ c : Char, c.isDigit = false → d ≠ c := by
        rintro c hc rfl
        rw [hd] at hc
        cases hc
      exact ⟨string?_eq_none (hne _ (by decide)) (hne _ (by decide)) _,
        truth?_eq_none (hne _ (by decide)) (hne _ (by decide)) _⟩
    · exact ⟨rfl, rfl⟩
  rw [simple?, hwords.1, hwords.2, hmoment, real?_append hsigned h]
  exact integer?_append hsigned h

end Toml
end JobPipeline
