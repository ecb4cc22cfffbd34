import JobPipeline.Proofs.Field.Spelling

/-
Lists under other tokens.

A token counts for nothing where a list is cut, whatever stands around it: it has no
comma and no quote, and its parentheses are a pair.  So a list whose tokens are put in
place of others is cut at the same places.
-/
namespace JobPipeline
namespace Field

open Piece (spelled tokens Whole Keeps)

/-! ## A token in its place -/

/-- A text that counts for nothing between any two others. -/
structure Weightless (cs : List Char) : Prop where
  plain : ∀ c ∈ cs, Plain c
  nonempty : cs ≠ []
  alike : Alike (cs.map .char) []

variable {m m' s t : List Char}

theorem literal?_plain (hm : ∀ c ∈ m, Plain c) (t : List Char) :
    literal? (m ++ t) = (literal? t).map fun (inner, rest) => (m ++ inner, rest) := by
  induction m with
  | nil => simp
  | cons c m ih =>
    obtain ⟨hc, hm⟩ := List.forall_mem_cons.1 hm
    rw [List.cons_append, literal?_cons_plain hc, ih hm, Option.map_map]
    rfl

/-- A literal that is open in front of a plain text is still open behind it. -/
theorem literal?_around (hm : ∀ c ∈ m, Plain c) (hne : m ≠ []) (hs : literal? s = none) (t : List Char) :
    literal? (s ++ (m ++ t)) = (literal? t).map fun (inner, rest) => (s ++ (m ++ inner), rest) := by
  fun_induction literal? s with
  | case1 => exact literal?_plain hm t
  | case2 c s ih =>
    rw [List.cons_append, List.cons_append, literal?_escape, ih (Option.map_eq_none_iff.1 hs),
      Option.map_map]
    rfl
  | case3 => cases hs
  | case4 c s hescape hc ih =>
    by_cases hslash : c = '\\'
    · -- The first character of the plain text is escaped, and plain all the same.
      subst hslash
      have hnil : s = [] := by
        cases s with
        | nil => rfl
        | cons d s => exact absurd rfl (hescape d s rfl)
      subst hnil
      obtain ⟨d, m, rfl⟩ := List.exists_cons_of_ne_nil hne
      rw [List.cons_append, List.nil_append, List.cons_append, literal?_escape,
        literal?_plain (List.forall_mem_cons.1 hm).2, Option.map_map]
      rfl
    · rw [List.cons_append, literal?_cons_plain ⟨hc, hslash⟩, ih (Option.map_eq_none_iff.1 hs),
        Option.map_map]
      rfl

theorem atoms_plain (hm : ∀ c ∈ m, Plain c) (t : List Char) :
    atoms (m ++ t) = m.map .char ++ atoms t := by
  induction m with
  | nil => rfl
  | cons c m ih =>
    obtain ⟨hc, hm⟩ := List.forall_mem_cons.1 hm
    rw [List.cons_append, atoms_cons hc.1, ih hm]
    rfl

theorem quote_not_mem (hm : ∀ c ∈ m, Plain c) : Atom.char '"' ∉ m.map .char := by
  intro hmem
  obtain ⟨c, hc, heq⟩ := List.mem_map.1 hmem
  exact (hm c hc).1 (Atom.char.inj heq)

/-- Nothing around it can tell one weightless text from another. -/
theorem similar_around (hm : Weightless m) (hm' : Weightless m') (s t : List Char) :
    Similar (s ++ (m ++ t)) (s ++ (m' ++ t)) := by
  have hatoms : Alike (atoms (s ++ (m ++ t))) (atoms (s ++ (m' ++ t))) ∧
      (.char '"' ∈ atoms (s ++ (m ++ t)) ↔ .char '"' ∈ atoms (s ++ (m' ++ t))) := by
    fun_induction atoms s with
    | case1 =>
      rw [List.nil_append, List.nil_append, atoms_plain hm.plain, atoms_plain hm'.plain]
      refine ⟨(hm.alike.trans hm'.alike.symm).append (Alike.refl _), ?_⟩
      rw [List.mem_append, List.mem_append, or_iff_right (quote_not_mem hm.plain),
        or_iff_right (quote_not_mem hm'.plain)]
    | case2 s inner rest hsome ih =>
      rw [List.cons_append, List.cons_append, atoms_quote_some (literal?_append hsome _),
        atoms_quote_some (literal?_append hsome _)]
      refine ⟨(Alike.refl [.literal inner]).append ih.1, ?_⟩
      rw [List.mem_cons, List.mem_cons, or_iff_right (by simp), or_iff_right (by simp)]
      exact ih.2
    | case3 s hnone ih =>
      have hcase := literal?_around hm.plain hm.nonempty hnone t
      have hcase' := literal?_around hm'.plain hm'.nonempty hnone t
      cases ht : literal? t with
      | none =>
        rw [ht] at hcase hcase'
        rw [List.cons_append, List.cons_append, atoms_quote_none hcase, atoms_quote_none hcase']
        exact ⟨(Alike.refl [.char '"']).append ih.1, by simp⟩
      | some result =>
        rw [ht] at hcase hcase'
        rw [List.cons_append, List.cons_append, atoms_quote_some hcase, atoms_quote_some hcase']
        have hsame : ∀ inner inner' : List Char, Alike [.literal inner] [.literal inner'] :=
          fun inner inner' => (alike_ordinary (a := .literal inner) trivial).trans
            (alike_ordinary (a := .literal inner') trivial).symm
        refine ⟨(hsame _ _).append (Alike.refl _), ?_⟩
        rw [List.mem_cons, List.mem_cons, or_iff_right (by simp), or_iff_right (by simp)]
    | case4 c s hc ih =>
      rw [List.cons_append, List.cons_append, atoms_cons hc, atoms_cons hc]
      refine ⟨(Alike.refl [.char c]).append ih.1, ?_⟩
      rw [List.mem_cons, List.mem_cons, ih.2]
  refine ⟨hatoms.1, hatoms.2, ?_⟩
  cases hs : literal? s with
  | none =>
    rw [literal?_around hm.plain hm.nonempty hs, literal?_around hm'.plain hm'.nonempty hs,
      Option.map_eq_none_iff, Option.map_eq_none_iff]
  | some result => simp [literal?_append hs]

theorem weightless_text {r : Reference} (h : r.Readable) : Weightless r.text := by
  have hneutral : ∀ c ∈ r.body, Neutral c := by
    intro c hc
    exact neutral_of_class (h.isBodyChar c hc) (by decide)
  have hbody : Alike (r.body.map .char) [] := by
    clear h
    generalize r.body = cs at hneutral
    induction cs with
    | nil => exact Alike.refl []
    | cons c cs ih =>
      obtain ⟨hc, hcs⟩ := List.forall_mem_cons.1 hneutral
      exact (alike_ordinary hc.2).append (ih hcs)
  refine ⟨fun c hc => ?_, List.cons_ne_nil _ _, ?_⟩
  · have htext := h.isTextChar c hc
    constructor <;> rintro rfl <;> exact absurd htext (by decide)
  · have hmap : r.text.map Atom.char = [.char '$'] ++ (.char '(' :: (r.body.map .char ++ [.char ')'])) := by
      simp [Reference.text]
    rw [hmap]
    exact (alike_ordinary (a := .char '$') (by decide)).append (alike_pair hbody)

theorem similar_spelled {f : Reference → Reference} (hf : Keeps f) {ps : List Piece} (hps : Whole ps) :
    Similar (spelled id ps) (spelled f ps) := by
  -- Token by token, behind any text.
  have hall : ∀ front, Similar (front ++ spelled id ps) (front ++ spelled f ps) := by
    induction ps with
    | nil => exact fun front => Similar.refl _
    | cons p ps ih =>
      intro front
      cases p with
      | plain c =>
        have hrest := ih hps (front ++ [c])
        rwa [List.append_assoc, List.append_assoc] at hrest
      | token r =>
        obtain ⟨hr, hps⟩ := List.forall_mem_cons.1 hps
        have hrest := ih hps (front ++ (f r).text)
        rw [List.append_assoc, List.append_assoc] at hrest
        exact (similar_around (weightless_text hr) (weightless_text (hf r hr)) front _).trans hrest
  exact hall []

/-! ## Cutting a list -/

theorem changed_map {α : Type} {f f' : α → List Char} {as : List α} (h : ∀ a ∈ as, Similar (f a) (f' a)) :
    Changed (as.map f) (as.map f') := by
  induction as with
  | nil => exact .nil
  | cons a as ih =>
    obtain ⟨ha, has⟩ := List.forall_mem_cons.1 h
    exact .keep ha (ih has)

/-- A list that was cut is cut in its pieces. -/
theorem exists_of_spelled_eq_joinWith {parts : List (List Char)} (hne : parts ≠ []) {ps : List Piece}
    (hps : Whole ps) (h : spelled id ps = Text.joinWith [','] parts) :
    ∃ qs : List (List Piece), parts = qs.map (spelled id) ∧ qs.flatMap tokens = tokens ps ∧
      ∀ f, spelled f ps = Text.joinWith [','] (qs.map (spelled f)) := by
  induction parts generalizing ps with
  | nil => exact absurd rfl hne
  | cons part parts ih =>
    cases parts with
    | nil => exact ⟨[ps], congrArg (· :: []) h.symm, by simp, fun f => rfl⟩
    | cons next parts =>
      rw [Text.joinWith, List.append_assoc, List.singleton_append] at h
      obtain ⟨q, rest, rfl, rfl, hrest⟩ :=
        Piece.eq_of_spelled_eq_append_cons Piece.keeps_id hps (by decide) h
      have hrest' : Whole rest := hps.of_subset fun r hr => by simp [hr]
      obtain ⟨qs, hqs, htokens, hspelled⟩ := ih (List.cons_ne_nil _ _) hrest' hrest.symm
      refine ⟨q :: qs, by rw [List.map_cons, ← hqs], by simp [htokens], fun f => ?_⟩
      have hcons : qs.map (spelled f) ≠ [] := by
        rw [ne_eq, List.map_eq_nil_iff]
        rintro rfl
        cases hqs
      obtain ⟨head, tail, htail⟩ := List.exists_cons_of_ne_nil hcons
      rw [List.map_cons, htail, Text.joinWith, ← htail, ← hspelled f]
      simp

theorem exists_splitTopLevel {ps : List Piece} (hps : Whole ps) :
    ∃ qs : List (List Piece), qs.flatMap tokens = tokens ps ∧
      ∀ f, Keeps f → splitTopLevel (spelled f ps) = qs.map (spelled f) := by
  have hjoin := (joinWith_splitTopLevel (spelled id ps)).symm
  have hseparate := separate_splitTopLevel (spelled id ps)
  have hne : splitTopLevel (spelled id ps) ≠ [] := by
    rw [splitTopLevel_eq]
    simpa using cuts_ne_nil _ _
  obtain ⟨qs, hparts, htokens, hspelled⟩ := exists_of_spelled_eq_joinWith hne hps hjoin
  refine ⟨qs, htokens, fun f hf => ?_⟩
  rw [hparts] at hseparate hne
  have hchanged : Changed (qs.map (spelled id)) (qs.map (spelled f)) := by
    refine changed_map fun q hq => similar_spelled hf ?_
    refine hps.of_subset fun r hr => ?_
    rw [← htokens]
    exact List.mem_flatMap.2 ⟨q, hq, hr⟩
  rw [hspelled f]
  exact (hseparate.changed hchanged).splitTopLevel (by simpa using hne)

theorem all_isBlank_spelled (f f' : Reference → Reference) (ps : List Piece) :
    (spelled f ps).all Text.isBlank = (spelled f' ps).all Text.isBlank := by
  induction ps with
  | nil => rfl
  | cons p ps ih =>
    cases p with
    | plain c => rw [Piece.spelled_plain, Piece.spelled_plain, List.all_cons, List.all_cons, ih]
    | token r => rfl

theorem tokens_eq_nil_of_blank {f : Reference → Reference} {ps : List Piece}
    (h : (spelled f ps).all Text.isBlank = true) : tokens ps = [] := by
  induction ps with
  | nil => rfl
  | cons p ps ih =>
    cases p with
    | plain c =>
      rw [Piece.spelled_plain, List.all_cons, Bool.and_eq_true] at h
      exact ih h.2
    | token r => cases h

/-- The items of a list are cut in its pieces, and no token is lost. -/
theorem exists_arrayItems {ps : List Piece} (hps : Whole ps) :
    ∃ qs : List (List Piece), qs.flatMap tokens = tokens ps ∧
      ∀ f, Keeps f → arrayItems (spelled f ps) = qs.map (spelled f) := by
  obtain ⟨inner, hinner, hstrip⟩ := Piece.tokenWise_trim.comp Piece.tokenWise_stripBrackets ps hps
  have hwhole : Whole inner := hps.of_subset fun r hr => hinner ▸ hr
  cases hblank : (spelled id inner).all Text.isBlank with
  | true =>
    refine ⟨[], (hinner.symm.trans (tokens_eq_nil_of_blank hblank)).symm, fun f hf => ?_⟩
    have hstripped : stripBrackets (Text.trim (spelled f ps)) = spelled f inner := hstrip f hf
    rw [arrayItems, hstripped, all_isBlank_spelled f id, hblank]
    rfl
  | false =>
    obtain ⟨parts, hparts, hsplit⟩ := exists_splitTopLevel hwhole
    have htrim : ∀ parts : List (List Piece), (∀ q ∈ parts, Whole q) →
        ∃ qs : List (List Piece), qs.flatMap tokens = parts.flatMap tokens ∧ ∀ f, Keeps f →
          ((parts.map (spelled f)).map Text.trim).filter (· ≠ []) = qs.map (spelled f) := by
      intro parts
      induction parts with
      | nil => exact fun _ => ⟨[], rfl, fun _ _ => rfl⟩
      | cons part parts ih =>
        intro hparts
        obtain ⟨hpart, hparts⟩ := List.forall_mem_cons.1 hparts
        obtain ⟨qs, hqs, hrest⟩ := ih hparts
        obtain ⟨q, hq, htrimmed⟩ := Piece.tokenWise_trim part hpart
        by_cases hnil : q = []
        · subst hnil
          refine ⟨qs, by rw [List.flatMap_cons, ← hq, hqs]; rfl, fun f hf => ?_⟩
          rw [List.map_cons, List.map_cons, htrimmed f hf, List.filter_cons_of_neg (by simp), hrest f hf]
        · refine ⟨q :: qs, by rw [List.flatMap_cons, List.flatMap_cons, hq, hqs], fun f hf => ?_⟩
          have hne : spelled f q ≠ [] := fun heq => hnil (Piece.spelled_eq_nil.1 heq)
          rw [List.map_cons, List.map_cons, htrimmed f hf, List.filter_cons_of_pos (by simpa using hne),
            hrest f hf, List.map_cons]
    obtain ⟨qs, hqs, hfiltered⟩ := htrim parts fun q hq => hwhole.of_subset fun r hr => by
      rw [← hparts]
      exact List.mem_flatMap.2 ⟨q, hq, hr⟩
    refine ⟨qs, hqs.trans (hparts.trans hinner), fun f hf => ?_⟩
    have hstripped : stripBrackets (Text.trim (spelled f ps)) = spelled f inner := hstrip f hf
    rw [arrayItems, hstripped, all_isBlank_spelled f id, hblank, if_neg Bool.false_ne_true, hsplit f hf]
    exact hfiltered f hf

end Field
end JobPipeline
