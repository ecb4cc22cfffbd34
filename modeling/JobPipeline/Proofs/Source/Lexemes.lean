import JobPipeline.Document
import JobPipeline.Field.Quoting
import JobPipeline.Source.Lexeme
import JobPipeline.Task.Rules

/-
What is written as one word is read as one word.

Each form of value has its own way to say where it ends: a quote that no
backslash stands before, the bracket that closes the first one, the first
character that a bare value cannot have.  The laws here say that a value of each
form is read back whole, whatever text follows it.
-/
namespace JobPipeline
namespace Source

/-! ## Between the words -/

/-- The text does not begin with a gap or a comment. -/
def Stops : List Char → Prop
  | [] => True
  | c :: _ => isGap c = false ∧ c ≠ '#' ∧ c ≠ '/'

/-- A text that may stand between two words: what follows it is read as if it
were not there. -/
def Gap (gap : List Char) : Prop := ∀ rest, skipGaps (gap ++ rest) = skipGaps rest

/-- The text does not go on with a character of a class. -/
def Apart (p : Char → Bool) (rest : List Char) : Prop := ∀ c ∈ rest.head?, p c = false

theorem afterComment?_eq_none {c : Char} (cs : List Char) (hhash : c ≠ '#') (hslash : c ≠ '/') :
    afterComment? (c :: cs) = none := by
  unfold afterComment?
  split
  · next h => exact absurd (List.cons.inj h).1 hhash
  · next h => exact absurd (List.cons.inj h).1 hslash
  · next h => exact absurd (List.cons.inj h).1 hslash
  · rfl

theorem skipGaps_of_stops {cs : List Char} (h : Stops cs) : skipGaps cs = cs := by
  cases cs with
  | nil => rw [skipGaps]
  | cons c cs =>
    obtain ⟨hgap, hhash, hslash⟩ := h
    rw [skipGaps, hgap, if_neg (by decide)]
    split
    · next h =>
      rw [afterComment?_eq_none cs hhash hslash] at h
      cases h
    · rfl

theorem gap_nil : Gap [] := fun _ => rfl

theorem gap_cons {c : Char} {gap : List Char} (hc : isGap c = true) (h : Gap gap) :
    Gap (c :: gap) := by
  intro rest
  rw [List.cons_append, skipGaps, if_pos hc]
  exact h rest

theorem gap_replicate {c : Char} (hc : isGap c = true) (n : Nat) : Gap (List.replicate n c) := by
  induction n with
  | zero => exact gap_nil
  | succ n ih => exact gap_cons hc ih

/-- A character of one of the four kinds of gap. -/
theorem eq_of_isGap {c : Char} (h : isGap c = true) : c = ' ' ∨ c = '\t' ∨ c = '\n' ∨ c = '\r' := by
  simpa [isGap, isLineBreak, or_assoc] using h

/-- A class of characters without gaps, and without the starts of comments. -/
def NoGap (p : Char → Bool) : Prop :=
  p ' ' = false ∧ p '\t' = false ∧ p '\n' = false ∧ p '\r' = false ∧ p '#' = false ∧ p '/' = false

instance (p : Char → Bool) : Decidable (NoGap p) := inferInstanceAs (Decidable (_ ∧ _))

theorem stops_of_class {p : Char → Bool} (hp : NoGap p) {c : Char} (hc : p c = true)
    (cs : List Char) : Stops (c :: cs) := by
  obtain ⟨h1, h2, h3, h4, h5, h6⟩ := hp
  have hne : ∀ d, p d = false → c ≠ d := fun d hd heq => by
    rw [heq, hd] at hc
    cases hc
  refine ⟨?_, hne _ h5, hne _ h6⟩
  rw [Bool.eq_false_iff]
  intro hgap
  rcases eq_of_isGap hgap with h | h | h | h
  · exact hne _ h1 h
  · exact hne _ h2 h
  · exact hne _ h3 h
  · exact hne _ h4 h

theorem Gap.apart {gap rest : List Char} {p : Char → Bool} (h : Gap gap) (hp : NoGap p)
    (hrest : Apart p rest) : Apart p (gap ++ rest) := by
  cases gap with
  | nil => exact hrest
  | cons c gap =>
    intro d hd
    cases hd
    rw [Bool.eq_false_iff]
    intro hc
    have hskip := h []
    rw [List.append_nil, skipGaps_of_stops (stops_of_class hp hc gap), skipGaps] at hskip
    cases hskip

/-! ## Names -/

theorem takeWhile_append_of_all {p : Char → Bool} {cs rest : List Char} (h : cs.all p = true)
    (hrest : Apart p rest) :
    (cs ++ rest).takeWhile p = cs ∧ (cs ++ rest).dropWhile p = rest := by
  induction cs with
  | nil =>
    cases rest with
    | nil => exact ⟨rfl, rfl⟩
    | cons c rest =>
      have hc : p c = false := hrest c rfl
      exact ⟨by rw [List.nil_append, List.takeWhile_cons, hc]; rfl,
        by rw [List.nil_append, List.dropWhile_cons, hc]; rfl⟩
  | cons c cs ih =>
    rw [List.all_cons, Bool.and_eq_true] at h
    obtain ⟨htake, hdrop⟩ := ih h.2
    exact ⟨by rw [List.cons_append, List.takeWhile_cons, h.1, if_pos rfl, htake],
      by rw [List.cons_append, List.dropWhile_cons, h.1, if_pos rfl, hdrop]⟩

theorem identifier?_append {name rest : List Char} (h : Identifier.isWord name = true)
    (hrest : Apart Identifier.isRest rest) :
    identifier? (name ++ rest) = some (String.ofList name, rest) := by
  cases name with
  | nil => cases h
  | cons c cs =>
    rw [Identifier.isWord, Bool.and_eq_true] at h
    obtain ⟨htake, hdrop⟩ := takeWhile_append_of_all h.2 hrest
    rw [List.cons_append, identifier?, if_pos h.1, htake, hdrop]

theorem stops_of_isWord {name : List Char} (h : Identifier.isWord name = true)
    (rest : List Char) : Stops (name ++ rest) := by
  cases name with
  | nil => cases h
  | cons c cs =>
    rw [Identifier.isWord, Bool.and_eq_true] at h
    exact stops_of_class (by decide) h.1 _

theorem isWord_of_isValid {name : String} (h : Identifier.isValid name = true) :
    Identifier.isWord name.toList = true := by
  rw [Identifier.isValid, Bool.and_eq_true] at h
  exact h.1

/-! ## Values -/

/-- A text between quotes is read up to the quote that was written behind it. -/
theorem quotedInner?_escapeQuoted (cs rest : List Char) :
    quotedInner? (Field.escapeQuoted cs ++ '"' :: rest) = some (Field.escapeQuoted cs, rest) := by
  induction cs with
  | nil => rfl
  | cons c cs ih =>
    have hcons : Field.escapeQuoted (c :: cs) = Field.escapeQuotedChar c ++ Field.escapeQuoted cs :=
      List.flatMap_cons
    rw [hcons, Field.escapeQuotedChar]
    by_cases hc : c = '"' ∨ c = '\\'
    · rw [if_pos hc]
      show quotedInner? ('\\' :: c :: (Field.escapeQuoted cs ++ '"' :: rest)) = _
      rw [quotedInner?, ih]
      rfl
    · rw [not_or] at hc
      rw [if_neg (not_or.2 hc)]
      show quotedInner? (c :: (Field.escapeQuoted cs ++ '"' :: rest)) = _
      rw [quotedInner?, if_neg hc.1, ih]
      · rfl
      · exact fun _ _ heq => absurd heq hc.2

theorem anglesInner?_open (depth : Nat) (cs : List Char) :
    anglesInner? depth ('<' :: cs) =
      (anglesInner? (depth + 1) cs).map fun (inner, rest) => ('<' :: inner, rest) := by
  rw [anglesInner?.eq_def]
  rfl

theorem anglesInner?_close (depth : Nat) (cs : List Char) :
    anglesInner? (depth + 1) ('>' :: cs) =
      (anglesInner? depth cs).map fun (inner, rest) => ('>' :: inner, rest) := by
  rw [anglesInner?.eq_def]
  rfl

theorem anglesInner?_plain {c : Char} (hopen : c ≠ '<') (hclose : c ≠ '>') (depth : Nat)
    (cs : List Char) :
    anglesInner? depth (c :: cs) =
      (anglesInner? depth cs).map fun (inner, rest) => (c :: inner, rest) := by
  rw [anglesInner?.eq_def]
  simp only [if_neg hopen, if_neg hclose]

theorem anglesCloseFrom_plain {c : Char} (hopen : c ≠ '<') (hclose : c ≠ '>') (depth : Nat)
    (cs : List Char) : anglesCloseFrom depth (c :: cs) = anglesCloseFrom depth cs := by
  rw [anglesCloseFrom.eq_def]
  simp only [if_neg hopen, if_neg hclose]

/-- A text whose angle brackets balance is read up to the bracket that was
written behind it. -/
theorem anglesInner?_append {depth : Nat} {cs : List Char} (h : anglesCloseFrom depth cs = true)
    (rest : List Char) : anglesInner? depth (cs ++ '>' :: rest) = some (cs, rest) := by
  induction cs generalizing depth with
  | nil =>
    have hdepth : depth = 0 := by simpa [anglesCloseFrom] using h
    subst hdepth
    rfl
  | cons c cs ih =>
    rw [List.cons_append]
    by_cases hopen : c = '<'
    · subst hopen
      rw [anglesInner?_open, @ih (depth + 1) h]
      rfl
    · by_cases hclose : c = '>'
      · subst hclose
        cases depth with
        | zero => cases h
        | succ depth =>
          rw [anglesInner?_close, @ih depth h]
          rfl
      · rw [anglesCloseFrom_plain hopen hclose] at h
        rw [anglesInner?_plain hopen hclose, ih h]
        rfl

theorem bare?_append {cs rest : List Char} (h : isBareLiteral cs = true)
    (hrest : Apart isBareChar rest) : bare? (cs ++ rest) = some (cs, rest) := by
  rw [isBareLiteral, Bool.and_eq_true, decide_eq_true_eq] at h
  obtain ⟨htake, hdrop⟩ := takeWhile_append_of_all (p := isBareChar) h.2 hrest
  rw [bare?, htake, hdrop]
  cases cs with
  | nil => exact absurd rfl h.1
  | cons c cs => rfl

end Source
end JobPipeline
