import JobPipeline.Text.Blank

/-
Laws of trimming.

A trimmed text begins and ends with a character that is no blank, or is empty.
That is all the writers and readers of values need of trimming, so it is put here
as a property of the text and as a way to take the blanks off.
-/
namespace JobPipeline
namespace Text

/-- No blank stands at either end. -/
def Trimmed (cs : List Char) : Prop :=
  (∀ c ∈ cs.head?, isBlank c = false) ∧ ∀ c ∈ cs.getLast?, isBlank c = false

theorem head?_dropWhile {p : Char → Bool} (cs : List Char) :
    ∀ c ∈ (cs.dropWhile p).head?, p c = false := by
  intro c hc
  have h := List.head?_dropWhile_not p cs
  rw [hc] at h
  simpa using h

theorem dropWhile_eq_self {p : Char → Bool} {cs : List Char} (h : ∀ c ∈ cs.head?, p c = false) :
    cs.dropWhile p = cs := by
  cases cs with
  | nil => rfl
  | cons c cs => rw [List.dropWhile_cons, h c rfl, if_neg (by decide)]

theorem trimStart_eq_self {cs : List Char} (h : ∀ c ∈ cs.head?, isBlank c = false) :
    trimStart cs = cs := dropWhile_eq_self h

theorem trimEnd_eq_self {cs : List Char} (h : ∀ c ∈ cs.getLast?, isBlank c = false) :
    trimEnd cs = cs := by
  rw [trimEnd, dropWhile_eq_self (by rwa [List.head?_reverse]), List.reverse_reverse]

theorem trim_eq_self {cs : List Char} (h : Trimmed cs) : trim cs = cs := by
  rw [trim, trimStart_eq_self h.1, trimEnd_eq_self h.2]

/-- The blanks that trimming takes off. -/
theorem exists_trimEnd (cs : List Char) :
    ∃ bs : List Char, cs = trimEnd cs ++ bs ∧ ∀ b ∈ bs, isBlank b = true := by
  refine ⟨(cs.reverse.takeWhile isBlank).reverse, ?_, fun b hb => ?_⟩
  · have h := congrArg List.reverse (List.takeWhile_append_dropWhile (p := isBlank) (l := cs.reverse))
    rw [List.reverse_append, List.reverse_reverse] at h
    exact h.symm
  · exact List.all_eq_true.1 List.all_takeWhile b (List.mem_reverse.1 hb)

theorem exists_trim (cs : List Char) :
    ∃ before behind : List Char, cs = before ++ (trim cs ++ behind) ∧
      (∀ b ∈ before, isBlank b = true) ∧ ∀ b ∈ behind, isBlank b = true := by
  obtain ⟨behind, hcut, hbehind⟩ := exists_trimEnd (trimStart cs)
  refine ⟨cs.takeWhile isBlank, behind, ?_, fun b hb => List.all_eq_true.1 List.all_takeWhile b hb,
    hbehind⟩
  rw [trim, ← hcut, trimStart, List.takeWhile_append_dropWhile]

theorem infix_of_trim (cs : List Char) : trim cs <:+: cs := by
  obtain ⟨before, behind, hcut, _⟩ := exists_trim cs
  exact ⟨before, behind, by rw [List.append_assoc]; exact hcut.symm⟩

theorem trimmed_trim (cs : List Char) : Trimmed (trim cs) := by
  constructor
  · intro c hc
    obtain ⟨behind, hcut, _⟩ := exists_trimEnd (trimStart cs)
    refine head?_dropWhile (p := isBlank) cs c ?_
    show c ∈ (trimStart cs).head?
    rw [trim] at hc
    rw [hcut]
    cases hnil : trimEnd (trimStart cs) with
    | nil =>
      rw [hnil] at hc
      cases hc
    | cons d ds =>
      rw [hnil] at hc
      exact hc
  · intro c hc
    rw [trim, trimEnd, List.getLast?_reverse] at hc
    exact head?_dropWhile _ c hc

theorem trim_trim (cs : List Char) : trim (trim cs) = trim cs := trim_eq_self (trimmed_trim cs)

theorem trimEnd_append {cs behind : List Char} (hbehind : ∀ b ∈ behind, isBlank b = true)
    (h : ∀ c ∈ cs.getLast?, isBlank c = false) : trimEnd (cs ++ behind) = cs := by
  rw [trimEnd, List.reverse_append,
    List.dropWhile_append_of_pos fun b hb => hbehind b (List.mem_reverse.1 hb)]
  exact trimEnd_eq_self h

/-- Blanks at the ends are trimmed off. -/
theorem trim_append {before cs behind : List Char} (hbefore : ∀ b ∈ before, isBlank b = true)
    (hbehind : ∀ b ∈ behind, isBlank b = true) (h : Trimmed cs) :
    trim (before ++ (cs ++ behind)) = cs := by
  rw [trim, trimStart, List.dropWhile_append_of_pos hbefore]
  cases cs with
  | nil =>
    have hnil : ([] ++ behind).dropWhile isBlank = [] := by
      have hdropped : (behind ++ []).dropWhile isBlank = [] :=
        List.dropWhile_append_of_pos hbehind
      rwa [List.append_nil] at hdropped
    rw [hnil]
    rfl
  | cons c cs =>
    have hkeep : (c :: cs ++ behind).dropWhile isBlank = c :: cs ++ behind :=
      dropWhile_eq_self fun d hd => h.1 d hd
    rw [hkeep]
    exact trimEnd_append hbehind h.2

theorem trim_eq_nil_iff (cs : List Char) : trim cs = [] ↔ cs.all isBlank = true := by
  constructor
  · intro h
    obtain ⟨before, behind, hcut, hbefore, hbehind⟩ := exists_trim cs
    rw [hcut, h, List.nil_append, List.all_append, Bool.and_eq_true]
    exact ⟨List.all_eq_true.2 hbefore, List.all_eq_true.2 hbehind⟩
  · intro h
    have hnil : Trimmed [] := ⟨fun c hc => (by cases hc), fun c hc => (by cases hc)⟩
    have hcut : trim (cs ++ ([] ++ [])) = [] :=
      trim_append (List.all_eq_true.1 h) (fun b hb => (by cases hb)) hnil
    rwa [List.append_nil, List.append_nil] at hcut

/-! ## Words -/

theorem words_blank {c : Char} (h : isBlank c = true) (cs : List Char) : words (c :: cs) = words cs := by
  rw [words.eq_def]
  exact if_pos h

theorem words_append_left {before : List Char} (h : ∀ b ∈ before, isBlank b = true) (cs : List Char) :
    words (before ++ cs) = words cs := by
  induction before with
  | nil => rfl
  | cons b before ih =>
    obtain ⟨hb, hbefore⟩ := List.forall_mem_cons.1 h
    rw [List.cons_append, words_blank hb, ih hbefore]

theorem words_append_right {behind : List Char} (h : ∀ b ∈ behind, isBlank b = true)
    (cs : List Char) : words (cs ++ behind) = words cs := by
  induction cs with
  | nil =>
    have hnone := words_append_left h []
    rwa [List.append_nil] at hnone
  | cons c cs ih =>
    by_cases hc : isBlank c = true
    · rw [List.cons_append, words_blank hc, words_blank hc, ih]
    · cases cs with
      | nil =>
        cases behind with
        | nil => rfl
        | cons b behind =>
          obtain ⟨hb, hbehind⟩ := List.forall_mem_cons.1 h
          have hnone := words_append_left h []
          rw [List.append_nil] at hnone
          show words (c :: b :: behind) = words [c]
          have hone : words [c] = [[c]] := if_neg hc
          rw [hone, words.eq_def]
          dsimp only
          rw [if_neg hc, if_pos hb, hnone]
          rfl
      | cons d cs =>
        show words (c :: d :: (cs ++ behind)) = words (c :: d :: cs)
        rw [List.cons_append] at ih
        rw [words.eq_def, words.eq_def (c :: d :: cs)]
        dsimp only
        rw [if_neg hc, if_neg hc, ih]

/-- Trimming takes no word away. -/
theorem words_trim (cs : List Char) : words (trim cs) = words cs := by
  obtain ⟨before, behind, hcut, hbefore, hbehind⟩ := exists_trim cs
  have hwords := congrArg words hcut
  rw [words_append_left hbefore, words_append_right hbehind] at hwords
  exact hwords.symm

theorem trimmed_trimmed (s : String) : trimmed (trimmed s) = trimmed s := by
  rw [trimmed, trimmed, String.toList_ofList, trim_trim]

end Text
end JobPipeline
