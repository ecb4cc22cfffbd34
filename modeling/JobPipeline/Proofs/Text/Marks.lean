import JobPipeline.Text.Segment

/-
Laws of the first occurrence of a mark.

An occurrence in the first of two texts is the first one in both together.  In the
other direction an occurrence may lie across the border: for a mark of one repeated
character it does not where the first text ends, or the second begins, with another.
-/
namespace JobPipeline
namespace Text

theorem aroundMark?_cons_some {mark cs rest : List Char} {c : Char}
    (h : afterMark? mark (c :: cs) = some rest) : aroundMark? mark (c :: cs) = some ([], rest) := by
  rw [aroundMark?, h]

theorem aroundMark?_cons_none {mark cs : List Char} {c : Char}
    (h : afterMark? mark (c :: cs) = none) :
    aroundMark? mark (c :: cs) = (aroundMark? mark cs).map fun (before, rest) => (c :: before, rest) := by
  rw [aroundMark?, h]

theorem eq_append_of_aroundMark? {mark cs before rest : List Char}
    (h : aroundMark? mark cs = some (before, rest)) : cs = before ++ (mark ++ rest) := by
  induction cs generalizing before with
  | nil =>
    rw [aroundMark?] at h
    split at h
    · next hmark =>
      cases h
      rw [hmark]
      rfl
    · cases h
  | cons c cs ih =>
    cases hafter : afterMark? mark (c :: cs) with
    | some r =>
      rw [aroundMark?_cons_some hafter] at h
      cases h
      rw [List.nil_append]
      exact afterMark?_eq_some.1 hafter
    | none =>
      rw [aroundMark?_cons_none hafter] at h
      obtain ⟨⟨b, r⟩, hbr, hpair⟩ := Option.map_eq_some_iff.1 h
      cases hpair
      rw [ih hbr, List.cons_append]

/-- A mark is found exactly where there is one. -/
theorem aroundMark?_eq_none_iff {mark : List Char} (hmark : mark ≠ []) (cs : List Char) :
    aroundMark? mark cs = none ↔ ¬mark <:+: cs := by
  induction cs with
  | nil =>
    rw [aroundMark?, if_neg hmark, List.infix_nil]
    simpa using hmark
  | cons c cs ih =>
    rw [List.infix_cons_iff, not_or, ← ih]
    cases hafter : afterMark? mark (c :: cs) with
    | some r =>
      have hbegins : mark <+: c :: cs := ⟨r, (afterMark?_eq_some.1 hafter).symm⟩
      rw [aroundMark?_cons_some hafter]
      simp [hbegins]
    | none =>
      have hbegins : ¬mark <+: c :: cs := by
        rintro ⟨r, hr⟩
        rw [afterMark?_eq_some.2 hr.symm] at hafter
        cases hafter
      rw [aroundMark?_cons_none hafter]
      simp [hbegins]

/-- The first occurrence stays the first when a text is added behind. -/
theorem aroundMark?_append_of_some {mark cs before rest : List Char}
    (h : aroundMark? mark cs = some (before, rest)) (more : List Char) :
    aroundMark? mark (cs ++ more) = some (before, rest ++ more) := by
  have hlength : mark.length ≤ cs.length := by
    rw [eq_append_of_aroundMark? h, List.length_append, List.length_append]
    omega
  induction cs generalizing before with
  | nil =>
    have hmark : mark = [] := List.eq_nil_of_length_eq_zero (Nat.le_zero.1 hlength)
    subst hmark
    cases h
    cases more <;> rfl
  | cons c cs ih =>
    cases hafter : afterMark? mark (c :: cs) with
    | some r =>
      rw [aroundMark?_cons_some hafter] at h
      cases h
      refine aroundMark?_cons_some (afterMark?_eq_some.2 ?_)
      rw [← List.append_assoc, ← afterMark?_eq_some.1 hafter]
      rfl
    | none =>
      rw [aroundMark?_cons_none hafter] at h
      obtain ⟨⟨b, r⟩, hbr, hpair⟩ := Option.map_eq_some_iff.1 h
      cases hpair
      have hnone : afterMark? mark (c :: (cs ++ more)) = none := by
        cases hmore : afterMark? mark (c :: (cs ++ more)) with
        | none => rfl
        | some r' =>
          exfalso
          have heq : (c :: cs) ++ more = mark ++ r' := afterMark?_eq_some.1 hmore
          have hfront : ∃ tail, c :: cs = mark ++ tail := by
            rcases List.append_eq_append_iff.1 heq with ⟨tail, htail, -⟩ | ⟨tail, htail, -⟩
            · -- The mark is no longer than the first text.
              have hempty : tail = [] := by
                rw [htail, List.length_append] at hlength
                exact List.eq_nil_of_length_eq_zero (by omega)
              exact ⟨[], by rw [htail, hempty, List.append_nil, List.append_nil]⟩
            · exact ⟨tail, htail⟩
          obtain ⟨tail, htail⟩ := hfront
          rw [afterMark?_eq_some.2 htail] at hafter
          cases hafter
      have hinner : mark.length ≤ cs.length := by
        rw [eq_append_of_aroundMark? hbr, List.length_append, List.length_append]
        omega
      rw [List.cons_append, aroundMark?_cons_none hnone, ih hbr hinner]
      rfl

/-- Without an occurrence in the first text and none across the border, the first
one is that of the second text. -/
theorem aroundMark?_append_of_none {mark : List Char} {m : Char} (hmark : ∀ c ∈ mark, c = m)
    {cs more : List Char} (h : aroundMark? mark cs = none)
    (hborder : cs.getLast? ≠ some m ∨ more.head? ≠ some m) :
    aroundMark? mark (cs ++ more) =
      (aroundMark? mark more).map fun (before, rest) => (cs ++ before, rest) := by
  induction cs with
  | nil =>
    show aroundMark? mark more = _
    cases aroundMark? mark more <;> rfl
  | cons c cs ih =>
    have hafter : afterMark? mark (c :: cs) = none := by
      cases hafter : afterMark? mark (c :: cs) with
      | none => rfl
      | some r =>
        rw [aroundMark?_cons_some hafter] at h
        cases h
    rw [aroundMark?_cons_none hafter, Option.map_eq_none_iff] at h
    have hnone : afterMark? mark (c :: (cs ++ more)) = none := by
      cases hmore : afterMark? mark (c :: (cs ++ more)) with
      | none => rfl
      | some r =>
        exfalso
        have heq : (c :: cs) ++ more = mark ++ r := afterMark?_eq_some.1 hmore
        rcases List.append_eq_append_iff.1 heq with ⟨tail, htail, hmore⟩ | ⟨tail, htail, -⟩
        · cases tail with
          | nil =>
            rw [List.append_nil] at htail
            rw [htail, afterMark?_eq_some.2 (List.append_nil (c :: cs)).symm] at hafter
            cases hafter
          | cons d tail =>
            -- The mark lies across the border.
            have hmem : ∀ e, e ∈ c :: cs ∨ e = d → e = m := by
              rintro e (he | rfl)
              · exact hmark e (htail ▸ List.mem_append_left _ he)
              · exact hmark e (htail ▸ List.mem_append_right _ List.mem_cons_self)
            rcases hborder with hlast | hhead
            · refine hlast ?_
              rw [List.getLast?_eq_some_getLast (List.cons_ne_nil c cs)]
              exact congrArg some (hmem _ (.inl (List.getLast_mem _)))
            · refine hhead ?_
              rw [hmore]
              exact congrArg some (hmem d (.inr rfl))
        · rw [afterMark?_eq_some.2 htail] at hafter
          cases hafter
    have htail : cs.getLast? ≠ some m ∨ more.head? ≠ some m := by
      refine hborder.imp_left fun hlast heq => hlast ?_
      rw [List.getLast?_cons, heq]
      rfl
    rw [List.cons_append, aroundMark?_cons_none hnone, ih h htail]
    cases aroundMark? mark more <;> rfl

end Text
end JobPipeline
