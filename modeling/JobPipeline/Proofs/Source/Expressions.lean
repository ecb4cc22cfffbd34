/-
Parsing expressions.

An expression takes some text from the front of a text, or refuses it.  A choice
goes its second way only where the first is refused, a repetition goes on for as
long as it can, and neither comes back to what it has taken.  So there is at most
one outcome on a text (`Outcome.unique`), and where a reader has it for every text
the reader is the expression.
-/
namespace JobPipeline
namespace Source

/-- Expressions over the rules of a grammar. -/
inductive Expression (ρ : Type) where
  | char (c : Char)
  /-- Any one character. -/
  | any
  | rule (name : ρ)
  | seq (first second : Expression ρ)
  | choice (first second : Expression ρ)
  /-- As often as it is not refused, perhaps never. -/
  | many (e : Expression ρ)
  /-- Nothing, where the expression is refused. -/
  | not (e : Expression ρ)

/-- What an expression comes to on a text: the text that it takes and the text
behind it, or a refusal. -/
inductive Outcome {ρ : Type} (grammar : ρ → Expression ρ) :
    Expression ρ → List Char → Option (List Char × List Char) → Prop
  | char (c : Char) (cs : List Char) : Outcome grammar (.char c) (c :: cs) (some ([c], cs))
  | charOther {c d : Char} (cs : List Char) : d ≠ c → Outcome grammar (.char c) (d :: cs) none
  | charEnd (c : Char) : Outcome grammar (.char c) [] none
  | any (c : Char) (cs : List Char) : Outcome grammar .any (c :: cs) (some ([c], cs))
  | anyEnd : Outcome grammar .any [] none
  | rule {name : ρ} {cs : List Char} {out : Option (List Char × List Char)} :
      Outcome grammar (grammar name) cs out → Outcome grammar (.rule name) cs out
  | seq {first second : Expression ρ} {cs taken between more rest : List Char} :
      Outcome grammar first cs (some (taken, between)) →
      Outcome grammar second between (some (more, rest)) →
      Outcome grammar (.seq first second) cs (some (taken ++ more, rest))
  | seqFirst {first second : Expression ρ} {cs : List Char} :
      Outcome grammar first cs none → Outcome grammar (.seq first second) cs none
  | seqSecond {first second : Expression ρ} {cs taken between : List Char} :
      Outcome grammar first cs (some (taken, between)) → Outcome grammar second between none →
      Outcome grammar (.seq first second) cs none
  | choiceFirst {first second : Expression ρ} {cs taken rest : List Char} :
      Outcome grammar first cs (some (taken, rest)) →
      Outcome grammar (.choice first second) cs (some (taken, rest))
  | choiceSecond {first second : Expression ρ} {cs : List Char} {out : Option (List Char × List Char)} :
      Outcome grammar first cs none → Outcome grammar second cs out →
      Outcome grammar (.choice first second) cs out
  | manyEnd {e : Expression ρ} {cs : List Char} :
      Outcome grammar e cs none → Outcome grammar (.many e) cs (some ([], cs))
  | manyStep {e : Expression ρ} {cs taken between more rest : List Char} :
      Outcome grammar e cs (some (taken, between)) →
      Outcome grammar (.many e) between (some (more, rest)) →
      Outcome grammar (.many e) cs (some (taken ++ more, rest))
  | notRefused {e : Expression ρ} {cs : List Char} :
      Outcome grammar e cs none → Outcome grammar (.not e) cs (some ([], cs))
  | notTaken {e : Expression ρ} {cs taken rest : List Char} :
      Outcome grammar e cs (some (taken, rest)) → Outcome grammar (.not e) cs none

namespace Outcome

variable {ρ : Type} {grammar : ρ → Expression ρ} {e : Expression ρ} {cs : List Char}

/-- An expression has one outcome on a text. -/
theorem unique {out out' : Option (List Char × List Char)} (h : Outcome grammar e cs out)
    (h' : Outcome grammar e cs out') : out = out' := by
  induction h generalizing out' with
  | char c cs =>
    cases h' with
    | char => rfl
    | charOther _ hne => exact absurd rfl hne
  | charOther cs hne =>
    cases h' with
    | char => exact absurd rfl hne
    | charOther => rfl
  | charEnd => cases h'; rfl
  | any => cases h'; rfl
  | anyEnd => cases h'; rfl
  | rule _ ih =>
    cases h' with
    | rule h' => exact ih h'
  | seq _ _ ihfirst ihsecond =>
    cases h' with
    | seq hfirst hsecond =>
      cases ihfirst hfirst
      cases ihsecond hsecond
      rfl
    | seqFirst hfirst => cases ihfirst hfirst
    | seqSecond hfirst hsecond =>
      cases ihfirst hfirst
      cases ihsecond hsecond
  | seqFirst _ ih =>
    cases h' with
    | seq hfirst => cases ih hfirst
    | seqFirst => rfl
    | seqSecond => rfl
  | seqSecond _ _ ihfirst ihsecond =>
    cases h' with
    | seq hfirst hsecond =>
      cases ihfirst hfirst
      cases ihsecond hsecond
    | seqFirst => rfl
    | seqSecond => rfl
  | choiceFirst _ ih =>
    cases h' with
    | choiceFirst hfirst => exact ih hfirst
    | choiceSecond hfirst => cases ih hfirst
  | choiceSecond _ _ ihfirst ihsecond =>
    cases h' with
    | choiceFirst hfirst => cases ihfirst hfirst
    | choiceSecond _ hsecond => exact ihsecond hsecond
  | manyEnd _ ih =>
    cases h' with
    | manyEnd => rfl
    | manyStep hfirst => cases ih hfirst
  | manyStep _ _ ihfirst ihmore =>
    cases h' with
    | manyEnd hfirst => cases ihfirst hfirst
    | manyStep hfirst hmore =>
      cases ihfirst hfirst
      cases ihmore hmore
      rfl
  | notRefused _ ih =>
    cases h' with
    | notRefused => rfl
    | notTaken h' => cases ih h'
  | notTaken _ ih =>
    cases h' with
    | notRefused h' => cases ih h'
    | notTaken => rfl

/-- The text is what was taken and what was left. -/
theorem text {taken rest : List Char} (h : Outcome grammar e cs (some (taken, rest))) :
    cs = taken ++ rest := by
  generalize hout : some (taken, rest) = out at h
  induction h generalizing taken rest with
  | char => cases hout; rfl
  | any => cases hout; rfl
  | charOther | charEnd | anyEnd | seqFirst | seqSecond | notTaken => cases hout
  | rule _ ih => exact ih hout
  | seq _ _ ihfirst ihsecond =>
    cases hout
    rw [ihfirst rfl, ihsecond rfl, List.append_assoc]
  | choiceFirst _ ih => exact ih hout
  | choiceSecond _ _ _ ih => exact ih hout
  | manyEnd => cases hout; rfl
  | manyStep _ _ ihfirst ihmore =>
    cases hout
    rw [ihfirst rfl, ihmore rfl, List.append_assoc]
  | notRefused => cases hout; rfl

/-- The one outcome, where it is known. -/
theorem iff_eq {out : Option (List Char × List Char)} (h : Outcome grammar e cs out)
    (out' : Option (List Char × List Char)) : Outcome grammar e cs out' ↔ out' = out :=
  ⟨fun h' => h'.unique h, fun heq => heq ▸ h⟩

theorem char_of_head? {c : Char} (h : cs.head? ≠ some c) : Outcome grammar (.char c) cs none := by
  cases cs with
  | nil => exact .charEnd c
  | cons d cs => exact .charOther cs fun heq => h (congrArg some heq)

end Outcome

/-! ## Between two marks -/

/-- An expression between an opening and a closing character. -/
def Expression.enclosed {ρ : Type} (opening : Char) (inner : Expression ρ) (closing : Char) :
    Expression ρ :=
  .seq (.char opening) (.seq inner (.char closing))

section

variable {ρ : Type} {grammar : ρ → Expression ρ} {inner : Expression ρ} {opening closing : Char}

theorem Outcome.enclosed {cs taken rest : List Char}
    (h : Outcome grammar inner cs (some (taken, closing :: rest))) (opening : Char) :
    Outcome grammar (.enclosed opening inner closing) (opening :: cs)
      (some (opening :: (taken ++ [closing]), rest)) :=
  .seq (.char opening cs) (.seq h (.char closing rest))

theorem Outcome.enclosed_open {cs taken rest : List Char}
    (h : Outcome grammar inner cs (some (taken, rest))) (hrest : rest.head? ≠ some closing)
    (opening : Char) : Outcome grammar (.enclosed opening inner closing) (opening :: cs) none :=
  .seqSecond (.char opening cs) (.seqSecond h (char_of_head? hrest))

theorem Outcome.enclosed_apart {cs : List Char} (h : cs.head? ≠ some opening) :
    Outcome grammar (.enclosed opening inner closing) cs none := .seqFirst (char_of_head? h)

/-- The scanner gives what the expression takes, and what follows the closing
character behind it; it gives nothing where another text is behind it. -/
def Scans (grammar : ρ → Expression ρ) (inner : Expression ρ) (closing : Char)
    (scan? : List Char → Option (List Char × List Char)) : Prop :=
  ∀ cs, ∃ taken rest, Outcome grammar inner cs (some (taken, rest)) ∧
    scan? cs = if rest.head? = some closing then some (taken, rest.tail) else none

theorem Scans.rule {name : ρ} {scan? : List Char → Option (List Char × List Char)}
    (h : Scans grammar (grammar name) closing scan?) : Scans grammar (.rule name) closing scan? := by
  intro cs
  obtain ⟨taken, rest, hinner, hscan⟩ := h cs
  exact ⟨taken, rest, .rule hinner, hscan⟩

/-- A text between two characters, the second of which a scanner looks for. -/
def between? (opening closing : Char) (scan? : List Char → Option (List Char × List Char)) :
    List Char → Option (List Char × List Char)
  | [] => none
  | c :: cs =>
    if c = opening then (scan? cs).map fun (inner, rest) => (opening :: (inner ++ [closing]), rest)
    else none

/-- Such a scanner is the expression. -/
theorem Scans.outcome {scan? : List Char → Option (List Char × List Char)}
    (h : Scans grammar inner closing scan?) (opening : Char) (cs : List Char) :
    Outcome grammar (.enclosed opening inner closing) cs (between? opening closing scan? cs) := by
  cases cs with
  | nil => exact .enclosed_apart nofun
  | cons c cs =>
    rw [between?]
    by_cases hc : c = opening
    · subst hc
      obtain ⟨taken, rest, hinner, hscan⟩ := h cs
      rw [if_pos rfl, hscan]
      by_cases hrest : rest.head? = some closing
      · obtain ⟨tail, rfl⟩ := List.head?_eq_some_iff.1 hrest
        rw [if_pos hrest]
        exact hinner.enclosed c
      · rw [if_neg hrest]
        exact hinner.enclosed_open hrest c
    · rw [if_neg hc]
      exact .enclosed_apart fun heq => hc (Option.some.inj heq)

/-- What the scanner gives is what the expression takes, up to the closing
character. -/
theorem Scans.taken {scan? : List Char → Option (List Char × List Char)}
    (h : Scans grammar inner closing scan?) {cs taken rest : List Char}
    (hscan : scan? cs = some (taken, rest)) :
    Outcome grammar inner cs (some (taken, closing :: rest)) := by
  obtain ⟨taken', rest', hinner, heq⟩ := h cs
  rw [hscan] at heq
  split at heq
  · next hrest =>
    obtain ⟨tail, rfl⟩ := List.head?_eq_some_iff.1 hrest
    cases heq
    exact hinner
  · cases heq

theorem Scans.length_le {scan? : List Char → Option (List Char × List Char)}
    (h : Scans grammar inner closing scan?) {cs taken rest : List Char}
    (hscan : scan? cs = some (taken, rest)) : rest.length ≤ cs.length := by
  rw [(h.taken hscan).text, List.length_append, List.length_cons]
  omega

end

end Source
end JobPipeline
