import JobPipeline.Source.Reader

/-
What a reader gives, whatever was refused before.

A reader carries a record of refusals along, which words an error and decides
nothing.  `Gives` is the reading without the record: the value and the rest of
the text, or a refusal.  There is one law for each way of putting readers
together, so that what a grammar rule gives follows the rule step by step.
`Yields` says what every value has that a reader takes, from whatever text.
-/
namespace JobPipeline
namespace Source
namespace Reader

variable {α β : Type}

/-- On this text the reader has this answer, with any record. -/
def Gives (r : Reader α) (cs : List Char) (answer : Option (α × List Char)) : Prop :=
  ∀ f, (r cs f).1 = answer

theorem gives_pure (a : α) (cs : List Char) : (pure a : Reader α).Gives cs (some (a, cs)) :=
  fun _ => rfl

theorem Gives.andThen {r : Reader α} {next : α → Reader β} {cs rest : List Char} {a : α}
    {answer : Option (β × List Char)} (h : r.Gives cs (some (a, rest)))
    (hnext : (next a).Gives rest answer) : (r.andThen next).Gives cs answer := by
  intro f
  have hf := h f
  rw [Reader.andThen]
  cases hr : r cs f with
  | mk result f' =>
    rw [hr] at hf
    cases hf
    exact hnext f'

theorem Gives.andThen_none {r : Reader α} {next : α → Reader β} {cs : List Char}
    (h : r.Gives cs none) : (r.andThen next).Gives cs none := by
  intro f
  have hf := h f
  rw [Reader.andThen]
  cases hr : r cs f with
  | mk result f' =>
    rw [hr] at hf
    cases hf
    rfl

theorem Gives.bind {r : Reader α} {next : α → Reader β} {cs rest : List Char} {a : α}
    {answer : Option (β × List Char)} (h : r.Gives cs (some (a, rest)))
    (hnext : (next a).Gives rest answer) : (r >>= next).Gives cs answer := h.andThen hnext

theorem Gives.bind_none {r : Reader α} {next : α → Reader β} {cs : List Char}
    (h : r.Gives cs none) : (r >>= next).Gives cs none := h.andThen_none

theorem Gives.orElse {first second : Reader α} {cs : List Char} {result : α × List Char}
    (h : first.Gives cs (some result)) : (orElse first second).Gives cs (some result) := by
  intro f
  have hf := h f
  rw [Reader.orElse]
  cases hr : first cs f with
  | mk answer f' =>
    rw [hr] at hf
    cases hf
    rfl

theorem Gives.orElse_none {first second : Reader α} {cs : List Char}
    {answer : Option (α × List Char)} (h : first.Gives cs none) (h' : second.Gives cs answer) :
    (Reader.orElse first second).Gives cs answer := by
  intro f
  have hf := h f
  rw [Reader.orElse]
  cases hr : first cs f with
  | mk result f' =>
    rw [hr] at hf
    cases hf
    exact h' f'

theorem Gives.optional {r : Reader α} {cs rest : List Char} {a : α}
    (h : r.Gives cs (some (a, rest))) : (optional r).Gives cs (some (some a, rest)) :=
  Gives.orElse (h.andThen (gives_pure _ _))

theorem Gives.optional_none {r : Reader α} {cs : List Char} (h : r.Gives cs none) :
    (Reader.optional r).Gives cs (some (none, cs)) :=
  Gives.orElse_none h.andThen_none (gives_pure _ _)

theorem gives_scanning (scan : List Char → Option (α × List Char)) (cs : List Char) :
    (scanning scan).Gives cs (scan cs) := fun _ => rfl

theorem gives_mark (m : String) (rest : List Char) :
    (mark m).Gives (m.toList ++ rest) (some ((), rest)) := by
  intro f
  show (Text.afterMark? m.toList (m.toList ++ rest)).map _ = _
  rw [Text.afterMark?_eq_some.2 rfl]
  rfl

theorem gives_mark_none {m : String} {cs : List Char}
    (h : Text.afterMark? m.toList cs = none) : (mark m).Gives cs none := by
  intro f
  show (Text.afterMark? m.toList cs).map _ = _
  rw [h]
  rfl

theorem Gives.rule {r : Reader α} {cs : List Char} {answer : Option (α × List Char)}
    (h : r.Gives cs answer) (name : Rule) : (rule name r).Gives cs answer := by
  intro f
  have hf := h f
  rw [Reader.rule]
  cases hr : r cs f with
  | mk result f' =>
    rw [hr] at hf
    subst hf
    cases result <;> rfl

theorem gives_left (cs : List Char) : left.Gives cs (some (cs.length, cs)) := fun _ => rfl

/-! ## Repetition -/

/-- The reader accepts again and again, and then refuses. -/
inductive Repeats (r : Reader α) : List Char → List α → List Char → Prop
  | stop {cs : List Char} : r.Gives cs none → Repeats r cs [] cs
  | step {cs next rest : List Char} {a : α} {as : List α} :
      r.Gives cs (some (a, next)) → next.length < cs.length → Repeats r next as rest →
      Repeats r cs (a :: as) rest

theorem Repeats.length_le {r : Reader α} {cs rest : List Char} {as : List α}
    (h : Repeats r cs as rest) : as.length ≤ cs.length := by
  induction h with
  | stop => exact Nat.zero_le _
  | step _ hless _ ih =>
    rw [List.length_cons]
    omega

theorem Repeats.repeating {r : Reader α} {cs rest : List Char} {as : List α}
    (h : Repeats r cs as rest) {fuel : Nat} (hfuel : as.length < fuel) :
    (repeating r fuel).Gives cs (some (as, rest)) := by
  induction h generalizing fuel with
  | stop hnone =>
    obtain ⟨fuel, rfl⟩ := Nat.exists_eq_add_one_of_ne_zero (Nat.ne_of_gt hfuel)
    exact Gives.orElse_none hnone.andThen_none (gives_pure _ _)
  | step hsome _ _ ih =>
    obtain ⟨fuel, rfl⟩ := Nat.exists_eq_add_one_of_ne_zero (Nat.ne_of_gt (Nat.zero_lt_of_lt hfuel))
    rw [List.length_cons] at hfuel
    exact Gives.orElse (hsome.andThen ((ih (by omega)).andThen (gives_pure _ _)))

/-- Every acceptance takes a character, so the bound on them is never met. -/
theorem Repeats.many {r : Reader α} {cs rest : List Char} {as : List α}
    (h : Repeats r cs as rest) : (many r).Gives cs (some (as, rest)) := fun f =>
  h.repeating (Nat.lt_succ_of_le h.length_le) f

/-- A reader that has accepted so far, and may go on. -/
inductive Steps (r : Reader α) : List Char → List α → List Char → Prop
  | none (cs : List Char) : Steps r cs [] cs
  | step {cs next rest : List Char} {a : α} {as : List α} :
      r.Gives cs (some (a, next)) → Steps r next as rest → Steps r cs (a :: as) rest

theorem Steps.concat {r : Reader α} {cs next rest : List Char} {a : α} {as : List α}
    (h : Steps r cs as next) (hlast : r.Gives next (some (a, rest))) : Steps r cs (as ++ [a]) rest := by
  induction h with
  | none => exact .step hlast (.none _)
  | step hsome _ ih => exact .step hsome (ih hlast)

/-! ## The record decides nothing -/

/-- On every text the reader has one answer, with any record. -/
def Definite (r : Reader α) : Prop := ∀ cs, ∃ answer, r.Gives cs answer

theorem Gives.eq {r : Reader α} {cs : List Char} {answer answer' : Option (α × List Char)}
    (h : r.Gives cs answer) (h' : r.Gives cs answer') : answer = answer' :=
  (h ⟨0, []⟩).symm.trans (h' ⟨0, []⟩)

theorem definite_pure (a : α) : (pure a : Reader α).Definite := fun cs => ⟨_, gives_pure a cs⟩

theorem definite_scanning (scan : List Char → Option (α × List Char)) : (scanning scan).Definite :=
  fun cs => ⟨_, gives_scanning scan cs⟩

theorem definite_left : left.Definite := fun cs => ⟨_, gives_left cs⟩

theorem Definite.bind {r : Reader α} {next : α → Reader β} (h : r.Definite)
    (hnext : ∀ a, (next a).Definite) : (r >>= next).Definite := by
  intro cs
  obtain ⟨answer, hr⟩ := h cs
  cases answer with
  | none => exact ⟨none, hr.bind_none⟩
  | some result =>
    obtain ⟨a, rest⟩ := result
    obtain ⟨answer, ha⟩ := hnext a rest
    exact ⟨answer, hr.bind ha⟩

theorem Definite.orElse {first second : Reader α} (h : first.Definite) (h' : second.Definite) :
    (Reader.orElse first second).Definite := by
  intro cs
  obtain ⟨answer, hfirst⟩ := h cs
  cases answer with
  | some result => exact ⟨_, hfirst.orElse⟩
  | none =>
    obtain ⟨answer, hsecond⟩ := h' cs
    exact ⟨answer, Gives.orElse_none hfirst hsecond⟩

theorem Definite.optional {r : Reader α} (h : r.Definite) : (Reader.optional r).Definite :=
  (h.bind fun a => definite_pure (some a)).orElse (definite_pure none)

theorem Definite.rule {r : Reader α} (h : r.Definite) (name : Rule) : (Reader.rule name r).Definite := by
  intro cs
  obtain ⟨answer, hr⟩ := h cs
  exact ⟨answer, hr.rule name⟩

theorem Definite.repeating {r : Reader α} (h : r.Definite) (fuel : Nat) :
    (Reader.repeating r fuel).Definite := by
  induction fuel with
  | zero => exact definite_pure []
  | succ fuel ih =>
    exact (h.bind fun a => ih.bind fun as => definite_pure (a :: as)).orElse (definite_pure [])

theorem Definite.many {r : Reader α} (h : r.Definite) : (Reader.many r).Definite := by
  intro cs
  obtain ⟨answer, hr⟩ := h.repeating (cs.length + 1) cs
  exact ⟨answer, hr⟩

/-- An optional reader refuses nothing. -/
theorem Definite.exists_optional {r : Reader α} (h : r.Definite) (cs : List Char) :
    ∃ given rest, (Reader.optional r).Gives cs (some (given, rest)) := by
  obtain ⟨answer, hr⟩ := h cs
  cases answer with
  | none => exact ⟨none, cs, Gives.optional_none hr⟩
  | some result => exact ⟨some result.1, result.2, Gives.optional hr⟩

/-- A repetition refuses nothing. -/
theorem Definite.exists_repeating {r : Reader α} (h : r.Definite) (fuel : Nat) (cs : List Char) :
    ∃ as rest, (Reader.repeating r fuel).Gives cs (some (as, rest)) := by
  cases fuel with
  | zero => exact ⟨[], cs, gives_pure [] cs⟩
  | succ fuel =>
    obtain ⟨answer, hr⟩ := (h.bind fun a =>
      (h.repeating fuel).bind fun as => definite_pure (a :: as)) cs
    cases answer with
    | none => exact ⟨[], cs, Gives.orElse_none hr (gives_pure [] cs)⟩
    | some result => exact ⟨result.1, result.2, hr.orElse⟩

theorem repeating_none {r : Reader α} {cs : List Char} (h : r.Gives cs none) (fuel : Nat) :
    (Reader.repeating r fuel).Gives cs (some ([], cs)) := by
  cases fuel with
  | zero => exact gives_pure [] cs
  | succ fuel => exact Gives.orElse_none h.andThen_none (gives_pure _ _)

/-- What a repetition has accepted so far stays, whatever it accepts behind it. -/
theorem Steps.repeating {r : Reader α} {cs next rest : List Char} {as more : List α}
    (h : Steps r cs as next) {fuel : Nat} (hmore : (Reader.repeating r fuel).Gives next (some (more, rest))) :
    (Reader.repeating r (as.length + fuel)).Gives cs (some (as ++ more, rest)) := by
  induction h with
  | none cs =>
    rw [List.length_nil, Nat.zero_add]
    exact hmore
  | step hsome _ ih =>
    rw [List.length_cons, Nat.add_right_comm]
    exact Gives.orElse (hsome.andThen ((ih hmore).andThen (gives_pure _ _)))

theorem Steps.many {r : Reader α} (hr : r.Definite) {cs next : List Char} {as : List α}
    (h : Steps r cs as next) (hlength : as.length ≤ cs.length) :
    ∃ more rest, (∃ fuel, (Reader.repeating r fuel).Gives next (some (more, rest))) ∧
      (Reader.many r).Gives cs (some (as ++ more, rest)) := by
  obtain ⟨fuel, hfuel⟩ := Nat.exists_eq_add_of_le hlength
  obtain ⟨more, rest, hmore⟩ := hr.exists_repeating (fuel + 1) next
  refine ⟨more, rest, ⟨_, hmore⟩, fun f => ?_⟩
  rw [Reader.many, hfuel, Nat.add_assoc]
  exact h.repeating hmore f

/-! ## What is known of every answer -/

/-- On every text and with any record, what the reader takes and leaves has the property. -/
def Answers (r : Reader α) (P : List Char → α × List Char → Prop) : Prop :=
  ∀ cs f, ∀ result ∈ (r cs f).1, P cs result

section
variable {P : List Char → α × List Char → Prop}

theorem Answers.bind {Q : List Char → β × List Char → Prop} {r : Reader α} {next : α → Reader β}
    (h : r.Answers P)
    (hnext : ∀ cs taken, P cs taken → ∀ f, ∀ result ∈ (next taken.1 taken.2 f).1, Q cs result) :
    (r >>= next).Answers Q := by
  intro cs f result hresult
  have hfirst := h cs f
  change result ∈ (r.andThen next cs f).1 at hresult
  rw [Reader.andThen] at hresult
  cases hr : r cs f with
  | mk answer f' =>
    rw [hr] at hresult hfirst
    cases answer with
    | none => cases hresult
    | some taken => exact hnext cs taken (hfirst taken rfl) f' result hresult

theorem Answers.orElse {first second : Reader α} (h : first.Answers P) (h' : second.Answers P) :
    (Reader.orElse first second).Answers P := by
  intro cs f result hresult
  have hfirst := h cs f
  rw [Reader.orElse] at hresult
  cases hr : first cs f with
  | mk answer f' =>
    rw [hr] at hresult hfirst
    cases answer with
    | none => exact h' _ _ result hresult
    | some taken => exact hfirst result hresult

theorem Answers.rule {r : Reader α} (h : r.Answers P) (name : Rule) : (Reader.rule name r).Answers P := by
  intro cs f result hresult
  have hr := h cs f
  rw [Reader.rule] at hresult
  cases hanswer : r cs f with
  | mk answer f' =>
    rw [hanswer] at hresult hr
    cases answer with
    | none => cases hresult
    | some taken => exact hr result hresult

end

/-- On every text and with any record, what the reader takes has the property. -/
def Yields (r : Reader α) (P : α → Prop) : Prop := ∀ cs f, ∀ result ∈ (r cs f).1, P result.1

theorem yields_any (r : Reader α) : r.Yields fun _ => True := fun _ _ _ _ => trivial

theorem yields_pure {P : α → Prop} {a : α} (ha : P a) : (pure a : Reader α).Yields P := by
  intro cs f result hresult
  cases hresult
  exact ha

theorem yields_scanning {P : α → Prop} {scan : List Char → Option (α × List Char)}
    (h : ∀ cs, ∀ result ∈ scan cs, P result.1) : (scanning scan).Yields P := fun cs _ => h cs

section
variable {P : α → Prop}

theorem Yields.bind {Q : β → Prop} {r : Reader α} {next : α → Reader β} (h : r.Yields P)
    (hnext : ∀ a, P a → (next a).Yields Q) : (r >>= next).Yields Q :=
  Answers.bind (P := fun _ result => P result.1) h fun _ taken htaken f => hnext taken.1 htaken taken.2 f

theorem Yields.orElse {first second : Reader α} (h : first.Yields P) (h' : second.Yields P) :
    (Reader.orElse first second).Yields P :=
  Answers.orElse h h'

theorem Yields.rule {r : Reader α} (h : r.Yields P) (name : Rule) : (Reader.rule name r).Yields P :=
  Answers.rule h name

theorem Yields.repeating {r : Reader α} (h : r.Yields P) (fuel : Nat) :
    (Reader.repeating r fuel).Yields fun as => ∀ a ∈ as, P a := by
  have hnone : (done [] : Reader (List α)).Yields fun as => ∀ a ∈ as, P a :=
    yields_pure fun a ha => by cases ha
  induction fuel with
  | zero => exact hnone
  | succ fuel ih =>
    refine Yields.orElse (h.bind fun a ha => ih.bind fun as has => yields_pure ?_) hnone
    exact List.forall_mem_cons.2 ⟨ha, has⟩

theorem Yields.many {r : Reader α} (h : r.Yields P) : (Reader.many r).Yields fun as => ∀ a ∈ as, P a :=
  fun cs f => h.repeating (cs.length + 1) cs f

end

end Reader
end Source
end JobPipeline
