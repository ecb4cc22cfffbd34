import JobPipeline.Proofs.Field.Cuts

/-
Parts that stay apart.

The parts of a list can be changed in ways that no bracket, quote or comma takes
part in, and put together again with commas, and they are cut at the same places.
`Parted` says this of lists of atoms: no comma inside a part cuts, and every
comma between two parts does.  `Separate` says it of texts, where a quote that
stays open must also find no end in a later part.

`Alike` is the freedom there is.  Two parts are alike when no bracket around them
can tell one from the other.
-/
namespace JobPipeline
namespace Field

/-- Parts with commas between them. -/
def joined : List (List Atom) → List Atom
  | [] => []
  | [part] => part
  | part :: next :: parts => part ++ .char ',' :: joined (next :: parts)

theorem textOf_joined (parts : List (List Atom)) :
    textOf (joined parts) = Text.joinWith [','] (parts.map textOf) := by
  induction parts with
  | nil => rfl
  | cons part parts ih =>
    cases parts with
    | nil => rfl
    | cons next parts =>
      rw [joined, textOf_append, textOf_cons, ih]
      simp [Text.joinWith, Atom.text]

theorem joined_cuts (stack : List Char) (as : List Atom) : joined (cuts stack as) = as := by
  induction as generalizing stack with
  | nil => rfl
  | cons a as ih =>
    rw [cuts]
    split
    · next hcut =>
      cases hparts : cuts stack as with
      | nil => exact absurd hparts (cuts_ne_nil stack as)
      | cons part parts =>
        rw [joined, ← hparts, ih, hcut.1]
        rfl
    · have hrest := ih (pushed stack a)
      cases hparts : cuts (pushed stack a) as with
      | nil => exact absurd hparts (cuts_ne_nil _ as)
      | cons part parts =>
        rw [hparts] at hrest
        rw [← hrest, prepend]
        cases parts <;> rfl

/-! ## Brackets and commas -/

/-- What is ahead of some atoms counts only by the brackets it closes. -/
theorem hits_append_congr {base : List Char} {bs cs : List Atom}
    (h : ∀ stack, hits base stack bs = hits base stack cs) (stack : List Char) (as : List Atom) :
    hits base stack (as ++ bs) = hits base stack (as ++ cs) := by
  induction as generalizing stack with
  | nil => exact h stack
  | cons a as ih =>
    cases a with
    | literal inner => exact ih stack
    | char c =>
      rw [List.cons_append, List.cons_append, hits, hits]
      split
      · exact ih _
      · split
        · exact ih stack
        · split
          · exact ih _
          · rw [ih stack]

theorem hits_comma (base stack : List Char) (as : List Atom) :
    hits base stack (.char ',' :: as) = hits base stack as := rfl

theorem hits_joined (base stack : List Char) (parts : List (List Atom)) :
    hits base stack (joined parts) = hits base stack parts.flatten := by
  induction parts generalizing stack with
  | nil => rfl
  | cons part parts ih =>
    cases parts with
    | nil => rw [joined, List.flatten_singleton]
    | cons next parts =>
      rw [joined, List.flatten_cons]
      exact hits_append_congr (fun stack => (hits_comma ..).trans (ih stack)) stack part

/-- No comma of a part cuts, with the brackets of `stack` open before it and
`tail` behind it. -/
def solid : (stack : List Char) → (tail part : List Atom) → Prop
  | _, _, [] => True
  | stack, tail, a :: as =>
    (a = .char ',' → hits stack [] (as ++ tail) = true) ∧ solid (pushed stack a) tail as

theorem solid_congr {tail tail' : List Atom}
    (h : ∀ base stack, hits base stack tail = hits base stack tail') (stack : List Char)
    (as : List Atom) : solid stack tail as ↔ solid stack tail' as := by
  induction as generalizing stack with
  | nil => exact Iff.rfl
  | cons a as ih =>
    rw [solid, solid, ih, hits_append_congr (fun stack' => h stack stack')]

theorem solid_append (stack : List Char) (tail as bs : List Atom) :
    solid stack tail (as ++ bs) ↔
      solid stack (bs ++ tail) as ∧ solid (as.foldl pushed stack) tail bs := by
  induction as generalizing stack with
  | nil => simp [solid]
  | cons a as ih =>
    rw [List.cons_append, solid, solid, ih, List.append_assoc, List.foldl_cons, and_assoc]

/-- The commas between the parts cut, and no others do. -/
def Parted : (stack : List Char) → (parts : List (List Atom)) → Prop
  | _, [] => True
  | stack, part :: parts =>
    solid stack parts.flatten part ∧ hits (part.foldl pushed stack) [] parts.flatten = false ∧
      Parted (part.foldl pushed stack) parts

theorem parted_cuts (stack : List Char) (as : List Atom) : Parted stack (cuts stack as) := by
  induction as generalizing stack with
  | nil => exact ⟨trivial, rfl, trivial⟩
  | cons a as ih =>
    rw [cuts]
    split
    · next hcut =>
      refine ⟨trivial, ?_, ih stack⟩
      show hits stack [] (cuts stack as).flatten = false
      rw [← hits_joined, joined_cuts]
      exact hcut.2
    · next hkeep =>
      have hrest := ih (pushed stack a)
      have hall := joined_cuts (pushed stack a) as
      cases hparts : cuts (pushed stack a) as with
      | nil => exact absurd hparts (cuts_ne_nil _ as)
      | cons part parts =>
        rw [hparts] at hrest hall
        refine ⟨⟨fun hcomma => ?_, hrest.1⟩, hrest.2⟩
        have hhit : hits stack [] as = true := by
          rw [← Bool.not_eq_false]
          exact fun hnot => hkeep ⟨hcomma, hnot⟩
        rw [← hall, hits_joined] at hhit
        exact hhit

theorem foldr_prepend (part next : List Atom) (parts : List (List Atom)) :
    part.foldr prepend (next :: parts) = (part ++ next) :: parts := by
  induction part with
  | nil => rfl
  | cons a part ih => rw [List.foldr_cons, ih, prepend, List.cons_append]

/-- A part without a comma that cuts is one part. -/
theorem cuts_append {stack : List Char} {tail part : List Atom} (rest : List Atom)
    (h : solid stack tail part) (hrest : ∀ base stack, hits base stack rest = hits base stack tail) :
    cuts stack (part ++ rest) = part.foldr prepend (cuts (part.foldl pushed stack) rest) := by
  induction part generalizing stack with
  | nil => rfl
  | cons a part ih =>
    have hkeep : ¬(a = .char ',' ∧ hits stack [] (part ++ rest) = false) := by
      rintro ⟨hcomma, hnot⟩
      rw [hits_append_congr (fun stack' => hrest stack stack'), h.1 hcomma] at hnot
      cases hnot
    rw [List.cons_append, cuts, if_neg hkeep, ih h.2]
    rfl

/-- Parts that are put together with commas are cut there again. -/
theorem cuts_joined {stack : List Char} {parts : List (List Atom)} (h : Parted stack parts)
    (hne : parts ≠ []) : cuts stack (joined parts) = parts := by
  induction parts generalizing stack with
  | nil => exact absurd rfl hne
  | cons part parts ih =>
    cases parts with
    | nil =>
      have hcuts := cuts_append [] h.1 fun _ _ => rfl
      rw [List.append_nil, cuts, foldr_prepend, List.append_nil] at hcuts
      exact hcuts
    | cons next parts =>
      have hcuts := cuts_append (.char ',' :: joined (next :: parts)) h.1
        fun base stack => (hits_comma ..).trans (hits_joined ..)
      have hnot : hits (part.foldl pushed stack) [] (joined (next :: parts)) = false := by
        rw [hits_joined]
        exact h.2.1
      have hrest := ih h.2.2 (List.cons_ne_nil next parts)
      rw [joined, hcuts, cuts, if_pos ⟨rfl, hnot⟩, hrest, foldr_prepend, List.append_nil]

/-! ## Parts that no bracket tells apart -/

structure Alike (p q : List Atom) : Prop where
  pushed : ∀ stack, p.foldl pushed stack = q.foldl pushed stack
  hits : ∀ base stack tail, hits base stack (p ++ tail) = hits base stack (q ++ tail)
  solid : ∀ stack tail, solid stack tail p ↔ solid stack tail q

namespace Alike

variable {p q r p' q' : List Atom}

theorem refl (p : List Atom) : Alike p p := ⟨fun _ => rfl, fun _ _ _ => rfl, fun _ _ => Iff.rfl⟩

theorem symm (h : Alike p q) : Alike q p :=
  ⟨fun s => (h.pushed s).symm, fun b s t => (h.hits b s t).symm, fun s t => (h.solid s t).symm⟩

theorem trans (h : Alike p q) (h' : Alike q r) : Alike p r :=
  ⟨fun s => (h.pushed s).trans (h'.pushed s), fun b s t => (h.hits b s t).trans (h'.hits b s t),
    fun s t => (h.solid s t).trans (h'.solid s t)⟩

theorem append (h : Alike p q) (h' : Alike p' q') : Alike (p ++ p') (q ++ q') where
  pushed stack := by rw [List.foldl_append, List.foldl_append, h.pushed, h'.pushed]
  hits base stack tail := by
    rw [List.append_assoc, List.append_assoc, h.hits]
    exact hits_append_congr (fun stack => h'.hits base stack tail) stack q
  solid stack tail := by
    rw [solid_append, solid_append, h.solid, h.pushed, h'.solid,
      solid_congr fun base stack => h'.hits base stack tail]

end Alike

/-- An atom that is neither a bracket nor a comma. -/
def Ordinary : Atom → Prop
  | .literal _ => True
  | .char c => isOpener c = false ∧ openerOf? c = none ∧ c ≠ ','

instance (a : Atom) : Decidable (Ordinary a) :=
  match a with
  | .literal _ => inferInstanceAs (Decidable True)
  | .char _ => inferInstanceAs (Decidable (_ ∧ _))

theorem alike_ordinary {a : Atom} (h : Ordinary a) : Alike [a] [] := by
  cases a with
  | literal inner =>
    refine ⟨fun _ => rfl, fun _ _ _ => rfl, fun _ _ => ⟨fun _ => trivial, fun _ => ⟨?_, trivial⟩⟩⟩
    exact fun heq => by cases heq
  | char c =>
    obtain ⟨hopen, hclose, hcomma⟩ := h
    refine ⟨fun stack => ?_, fun base stack tail => ?_, fun stack tail => ?_⟩
    · show Field.pushed stack (.char c) = stack
      rw [Field.pushed, hopen, hclose]
      rfl
    · show Field.hits base stack (.char c :: tail) = Field.hits base stack tail
      rw [Field.hits, hopen, hclose]
      rfl
    · refine ⟨fun _ => trivial, fun _ => ⟨fun heq => ?_, trivial⟩⟩
      exact absurd (Atom.char.inj heq) hcomma

/-- A pair of brackets around nothing that counts counts for nothing. -/
theorem alike_pair {as : List Atom} (h : Alike as []) :
    Alike (Atom.char '(' :: (as ++ [Atom.char ')'])) [] := by
  have hfold : ∀ stack, as.foldl pushed stack = stack := h.pushed
  refine ⟨fun stack => ?_, fun base stack tail => ?_, fun stack tail => ⟨fun _ => trivial, fun _ => ?_⟩⟩
  · show (as ++ [Atom.char ')']).foldl pushed ('(' :: stack) = stack
    rw [List.foldl_append, hfold]
    rfl
  · show Field.hits base ('(' :: stack) (as ++ [.char ')'] ++ tail) = Field.hits base stack tail
    rw [List.append_assoc, h.hits]
    rfl
  · have hlast : Field.solid (as.foldl Field.pushed ('(' :: stack)) tail [.char ')'] := by
      rw [Field.solid]
      exact ⟨(fun heq => by cases heq), trivial⟩
    rw [Field.solid]
    exact ⟨(fun heq => by cases heq), (solid_append ..).2 ⟨(h.solid _ _).2 trivial, hlast⟩⟩

/-- Changed parts: some are replaced by parts alike, and some that count for
nothing are left out. -/
inductive Replaced : List (List Atom) → List (List Atom) → Prop
  | nil : Replaced [] []
  | drop {p : List Atom} {ps qs : List (List Atom)} : Alike p [] → Replaced ps qs →
      Replaced (p :: ps) qs
  | keep {p q : List Atom} {ps qs : List (List Atom)} : Alike p q → Replaced ps qs →
      Replaced (p :: ps) (q :: qs)

theorem Replaced.hits_flatten {ps qs : List (List Atom)} (h : Replaced ps qs)
    (base stack : List Char) : hits base stack ps.flatten = hits base stack qs.flatten := by
  induction h generalizing stack with
  | nil => rfl
  | drop hp _ ih =>
    rw [List.flatten_cons, hp.hits]
    exact ih stack
  | @keep p q ps qs hpq _ ih =>
    rw [List.flatten_cons, List.flatten_cons, hpq.hits]
    exact hits_append_congr ih stack q

theorem Parted.replaced {ps qs : List (List Atom)} (h : Replaced ps qs) {stack : List Char}
    (hps : Parted stack ps) : Parted stack qs := by
  induction h generalizing stack with
  | nil => trivial
  | drop hp _ ih =>
    have hrest := hps.2.2
    rw [hp.pushed] at hrest
    exact ih hrest
  | @keep p q ps qs hpq hrest ih =>
    obtain ⟨hsolid, hnot, hparted⟩ := hps
    rw [hpq.pushed] at hnot hparted
    refine ⟨?_, ?_, ih hparted⟩
    · rw [← hpq.solid]
      exact (solid_congr hrest.hits_flatten stack p).1 hsolid
    · rw [← hrest.hits_flatten]
      exact hnot

end Field
end JobPipeline
