import JobPipeline.Field.Body
import JobPipeline.Proofs.Field.Tokens
import Mathlib.Data.List.Induction

/-
Texts under other tokens.

`spelled f ps` is the text of some pieces with every token put in place of another.
Nothing that is done with a field before it is written looks into a token: trimming,
taking the blanks out of a body and cutting a list act on the pieces, whatever the
tokens are.  `TokenWise` says this of one such step.
-/
namespace JobPipeline

open Text (isBlank trim Trimmed)

namespace Reference

/-- The characters of a token. -/
def isTextChar (c : Char) : Bool := c == '$' || c == '(' || c == ')' || isBodyChar c

theorem Readable.isTextChar {r : Reference} (h : r.Readable) :
    ∀ c ∈ r.text, Reference.isTextChar c = true := by
  intro c hc
  simp only [text, List.mem_cons, List.cons_append, List.mem_append, List.not_mem_nil, or_false] at hc
  rw [Reference.isTextChar]
  rcases hc with rfl | rfl | hc | rfl
  · rfl
  · rfl
  · rw [h.isBodyChar c hc, Bool.or_true]
  · rfl

end Reference

namespace Piece

def tokens (ps : List Piece) : List Reference := ps.filterMap reference?

/-- Every token can be read. -/
def Whole (ps : List Piece) : Prop := ∀ r ∈ tokens ps, r.Readable

/-- A map of tokens to tokens that can be read as well. -/
def Keeps (f : Reference → Reference) : Prop := ∀ r, r.Readable → (f r).Readable

def spelled (f : Reference → Reference) (ps : List Piece) : List Char :=
  ps.flatMap fun
    | .plain c => [c]
    | .token r => (f r).text

variable {f : Reference → Reference} {ps qs : List Piece} {r : Reference} {c : Char}

theorem keeps_id : Keeps id := fun _ h => h

@[simp] theorem spelled_nil : spelled f [] = [] := rfl

@[simp] theorem spelled_plain : spelled f (.plain c :: ps) = c :: spelled f ps := rfl

@[simp] theorem spelled_token : spelled f (.token r :: ps) = (f r).text ++ spelled f ps := rfl

@[simp] theorem spelled_append : spelled f (ps ++ qs) = spelled f ps ++ spelled f qs :=
  List.flatMap_append

@[simp] theorem tokens_plain : tokens (.plain c :: ps) = tokens ps := rfl

@[simp] theorem tokens_token : tokens (.token r :: ps) = r :: tokens ps := rfl

@[simp] theorem tokens_append : tokens (ps ++ qs) = tokens ps ++ tokens qs := List.filterMap_append

theorem spelled_map_plain (cs : List Char) : spelled f (cs.map .plain) = cs := by
  induction cs with
  | nil => rfl
  | cons c cs ih => rw [List.map_cons, spelled_plain, ih]

theorem tokens_map_plain (cs : List Char) : tokens (cs.map .plain) = [] := by
  rw [tokens, List.filterMap_map]
  exact List.filterMap_eq_nil_iff.2 fun _ _ => rfl

theorem spelled_pieces (cs : List Char) : spelled id (pieces cs) = cs := by
  have htext : spelled id (pieces cs) = (pieces cs).flatMap Piece.text := by
    rw [spelled]
    congr 1
  rw [htext, flatMap_text_pieces]

theorem tokens_pieces (cs : List Char) : tokens (pieces cs) = Field.references cs := rfl

theorem whole_pieces (cs : List Char) : Whole (pieces cs) := by
  fun_induction pieces cs with
  | case1 => exact fun r hr => absurd hr List.not_mem_nil
  | case2 c cs r rest hscan ih => exact List.forall_mem_cons.2 ⟨Reference.readable_of_scan? hscan, ih⟩
  | case3 c cs _ ih => exact ih

theorem Whole.of_subset (h : Whole ps) (hsub : ∀ r ∈ tokens qs, r ∈ tokens ps) : Whole qs :=
  fun r hr => h r (hsub r hr)

theorem spelled_eq_nil : spelled f ps = [] ↔ ps = [] := by
  cases ps with
  | nil => simp
  | cons p ps => cases p <;> simp [Reference.text]

/-! ## Parts of a spelled text -/

/-- A front without dollar signs is made of plain pieces. -/
theorem eq_of_spelled_eq_append {front rest : List Char} (hfront : '$' ∉ front)
    (h : spelled f ps = front ++ rest) : ∃ qs, ps = front.map .plain ++ qs ∧ rest = spelled f qs := by
  induction front generalizing ps with
  | nil => exact ⟨ps, rfl, h.symm⟩
  | cons c front ih =>
    rw [List.mem_cons, not_or] at hfront
    cases ps with
    | nil => cases h
    | cons p ps =>
      cases p with
      | token r =>
        obtain ⟨hc, -⟩ := List.cons.inj h
        exact absurd hc hfront.1
      | plain d =>
        obtain ⟨rfl, hrest⟩ := List.cons.inj h
        obtain ⟨qs, rfl, hqs⟩ := ih hfront.2 hrest
        exact ⟨qs, rfl, hqs⟩

/-- A character that no token has is a piece of its own. -/
theorem eq_of_spelled_eq_append_cons (hf : Keeps f) (hps : Whole ps)
    (hc : Reference.isTextChar c = false) {front rest : List Char} (h : spelled f ps = front ++ c :: rest) :
    ∃ qs rs, ps = qs ++ .plain c :: rs ∧ front = spelled f qs ∧ rest = spelled f rs := by
  induction ps generalizing front with
  | nil => simp at h
  | cons p ps ih =>
    cases p with
    | plain d =>
      cases front with
      | nil =>
        obtain ⟨rfl, hrest⟩ := List.cons.inj h
        exact ⟨[], ps, rfl, rfl, hrest.symm⟩
      | cons e front =>
        obtain ⟨rfl, hrest⟩ := List.cons.inj h
        obtain ⟨qs, rs, rfl, rfl, hrs⟩ := ih hps hrest
        exact ⟨.plain d :: qs, rs, rfl, rfl, hrs⟩
    | token r =>
      obtain ⟨hr, hps⟩ := List.forall_mem_cons.1 hps
      rw [spelled_token] at h
      rcases List.append_eq_append_iff.1 h with ⟨more, rfl, hrest⟩ | ⟨more, htext, hrest⟩
      · obtain ⟨qs, rs, rfl, rfl, hrs⟩ := ih hps hrest
        exact ⟨.token r :: qs, rs, rfl, rfl, hrs⟩
      · cases more with
        | nil =>
          have hbegins : spelled f ps = [] ++ c :: rest := hrest.symm
          obtain ⟨qs, rs, rfl, hnil, hrs⟩ := ih hps hbegins
          refine ⟨.token r :: qs, rs, rfl, ?_, hrs⟩
          rw [spelled_token, ← hnil, htext, List.append_nil, List.append_nil]
        | cons d more =>
          obtain ⟨rfl, -⟩ := List.cons.inj hrest
          have hmem : c ∈ (f r).text := htext ▸ List.mem_append_right _ List.mem_cons_self
          rw [(hf r hr).isTextChar c hmem] at hc
          cases hc

/-! ## The tokens that are found -/

/-- A token that begins with a plain piece has only plain pieces. -/
theorem exists_of_scan?_plain {c : Char} {x : Reference} {rest : List Char}
    (h : Reference.scan? (c :: spelled f ps) = some (x, rest)) :
    ∃ tail qs, c = '$' ∧ x.text = '$' :: tail ∧ ps = tail.map .plain ++ qs ∧ rest = spelled f qs := by
  obtain ⟨tail, htail, hdollar⟩ := (Reference.readable_of_scan? h).text_eq
  have htext := Reference.text_of_scan? h
  rw [htail] at htext
  obtain ⟨rfl, hrest⟩ := List.cons.inj htext
  obtain ⟨qs, hqs, hspelled⟩ := eq_of_spelled_eq_append hdollar hrest
  exact ⟨tail, qs, rfl, htail, hqs, hspelled⟩

/-- Where a plain piece begins no token, it begins none in another spelling either. -/
theorem scan?_plain_eq_none {f' : Reference → Reference} {c : Char}
    (h : Reference.scan? (c :: spelled f ps) = none) : Reference.scan? (c :: spelled f' ps) = none := by
  refine Option.eq_none_iff_forall_ne_some.2 fun result hsome => ?_
  obtain ⟨x, rest⟩ := result
  obtain ⟨tail, qs, rfl, htail, rfl, -⟩ := exists_of_scan?_plain hsome
  have hagain := (Reference.readable_of_scan? hsome).scan?_text (spelled f qs)
  rw [spelled_append, spelled_map_plain] at h
  rw [htail, List.cons_append, h] at hagain
  cases hagain

/-- The tokens of a spelled text are those of its pieces, among others that plain
characters happen to spell. -/
theorem exists_references (hps : Whole ps) :
    ∃ found : List (Bool × Reference), (found.filter Prod.fst).map Prod.snd = tokens ps ∧
      ∀ f, Keeps f → Field.references (spelled f ps) = found.map fun e => if e.1 then f e.2 else e.2 := by
  induction hn : ps.length using Nat.strongRecOn generalizing ps with
  | _ n ih =>
  subst hn
  cases ps with
  | nil => exact ⟨[], rfl, fun f _ => Field.references_eq_nil List.not_mem_nil⟩
  | cons p ps =>
    cases p with
    | token r =>
      obtain ⟨hr, hps⟩ := List.forall_mem_cons.1 hps
      obtain ⟨found, hfound, hall⟩ := ih ps.length (Nat.lt_succ_self _) hps rfl
      refine ⟨(true, r) :: found, by simp [hfound], fun f hf => ?_⟩
      rw [spelled_token, Field.references, (hf r hr).pieces_text, List.map_cons, ← hall f hf]
      rfl
    | plain c =>
      cases hscan : Reference.scan? (c :: spelled id ps) with
      | none =>
        have hrest : Whole ps := hps
        obtain ⟨found, hfound, hall⟩ := ih ps.length (Nat.lt_succ_self _) hrest rfl
        refine ⟨found, hfound, fun f hf => ?_⟩
        rw [spelled_plain, Field.references, pieces_cons_of_none (scan?_plain_eq_none hscan), ← hall f hf]
        rfl
      | some result =>
        obtain ⟨x, rest⟩ := result
        obtain ⟨tail, qs, rfl, htail, rfl, -⟩ := exists_of_scan?_plain hscan
        have htokens : tokens (.plain '$' :: (tail.map .plain ++ qs)) = tokens qs := by
          rw [tokens_plain, tokens_append, tokens_map_plain, List.nil_append]
        have hless : qs.length < (Piece.plain '$' :: (tail.map .plain ++ qs)).length := by
          simp only [List.length_cons, List.length_append]
          omega
        have hqs : Whole qs := hps.of_subset fun r hr => by rwa [htokens]
        obtain ⟨found, hfound, hall⟩ := ih qs.length hless hqs rfl
        refine ⟨(false, x) :: found, by simpa [htokens] using hfound, fun f hf => ?_⟩
        have hspelled : spelled f (.plain '$' :: (tail.map .plain ++ qs)) = x.text ++ spelled f qs := by
          rw [spelled_plain, spelled_append, spelled_map_plain, htail]
          rfl
        rw [hspelled, Field.references, (Reference.readable_of_scan? hscan).pieces_text, List.map_cons,
          ← hall f hf]
        rfl

/-! ## Steps that leave tokens whole -/

/-- A change of texts acts on their pieces and keeps all tokens. -/
def TokenWise (op : List Char → List Char) : Prop :=
  ∀ ps, Whole ps → ∃ qs, tokens qs = tokens ps ∧ ∀ f, Keeps f → op (spelled f ps) = spelled f qs

theorem TokenWise.id : TokenWise id := fun ps _ => ⟨ps, rfl, fun _ _ => rfl⟩

theorem TokenWise.comp {op op' : List Char → List Char} (h : TokenWise op) (h' : TokenWise op') :
    TokenWise fun cs => op' (op cs) := by
  intro ps hps
  obtain ⟨qs, hqs, hop⟩ := h ps hps
  obtain ⟨rs, hrs, hop'⟩ := h' qs (hps.of_subset fun r hr => hqs ▸ hr)
  exact ⟨rs, hrs.trans hqs, fun f hf => (congrArg op' (hop f hf)).trans (hop' f hf)⟩

/-- A token ends with its closing parenthesis. -/
theorem exists_text_eq (r : Reference) : ∃ front, r.text = front ++ [')'] :=
  ⟨'$' :: '(' :: r.body, by simp [Reference.text]⟩

theorem exists_trimmed_left (ps : List Piece) :
    ∃ (before : List Char) (qs : List Piece), ps = before.map .plain ++ qs ∧
      (∀ b ∈ before, isBlank b = true) ∧ ∀ f, ∀ c ∈ (spelled f qs).head?, isBlank c = false := by
  induction ps with
  | nil => exact ⟨[], [], rfl, by simp, by simp⟩
  | cons p ps ih =>
    cases p with
    | token r =>
      refine ⟨[], .token r :: ps, rfl, by simp, fun f c hc => ?_⟩
      cases hc
      decide
    | plain d =>
      cases hd : isBlank d with
      | true =>
        obtain ⟨before, qs, rfl, hbefore, hqs⟩ := ih
        exact ⟨d :: before, qs, rfl, List.forall_mem_cons.2 ⟨hd, hbefore⟩, hqs⟩
      | false =>
        refine ⟨[], .plain d :: ps, rfl, by simp, fun f c hc => ?_⟩
        cases hc
        exact hd

theorem exists_trimmed_right (ps : List Piece) :
    ∃ (qs : List Piece) (behind : List Char), ps = qs ++ behind.map .plain ∧
      (∀ b ∈ behind, isBlank b = true) ∧ ∀ f, ∀ c ∈ (spelled f qs).getLast?, isBlank c = false := by
  induction ps using List.reverseRecOn with
  | nil => exact ⟨[], [], rfl, by simp, by simp⟩
  | append_singleton ps p ih =>
    cases p with
    | token r =>
      refine ⟨ps ++ [.token r], [], by simp, by simp, fun f c hc => ?_⟩
      obtain ⟨front, hfront⟩ := exists_text_eq (f r)
      rw [spelled_append, spelled_token, spelled_nil, List.append_nil, hfront, ← List.append_assoc,
        List.getLast?_concat] at hc
      cases hc
      decide
    | plain d =>
      cases hd : isBlank d with
      | true =>
        obtain ⟨qs, behind, rfl, hbehind, hqs⟩ := ih
        refine ⟨qs, behind ++ [d], by simp, ?_, hqs⟩
        simpa [or_imp, forall_and] using ⟨hbehind, hd⟩
      | false =>
        refine ⟨ps ++ [.plain d], [], by simp, by simp, fun f c hc => ?_⟩
        rw [spelled_append, spelled_plain, spelled_nil, List.getLast?_concat] at hc
        cases hc
        exact hd

theorem tokenWise_trim : TokenWise trim := by
  intro ps _
  obtain ⟨before, qs, rfl, hbefore, hhead⟩ := exists_trimmed_left ps
  obtain ⟨rs, behind, rfl, hbehind, hlast⟩ := exists_trimmed_right qs
  refine ⟨rs, by simp [tokens_map_plain], fun f _ => ?_⟩
  have htrimmed : Trimmed (spelled f rs) := by
    refine ⟨fun c hc => hhead f c ?_, hlast f⟩
    rw [spelled_append, List.head?_append, hc]
    rfl
  rw [spelled_append, spelled_append, spelled_map_plain, spelled_map_plain]
  exact Text.trim_append hbefore hbehind htrimmed

theorem tokenWise_withoutOpening : TokenWise Field.withoutOpening := by
  intro ps _
  cases ps with
  | nil => exact ⟨[], rfl, fun _ _ => rfl⟩
  | cons p ps =>
    by_cases hp : p = .plain '['
    · subst hp
      exact ⟨ps, rfl, fun _ _ => rfl⟩
    · refine ⟨p :: ps, rfl, fun f _ => if_neg fun hhead => ?_⟩
      cases p with
      | plain c => exact hp (congrArg Piece.plain (Option.some.inj hhead))
      | token r => exact absurd (Option.some.inj hhead) (by decide)

theorem tokenWise_withoutClosing : TokenWise Field.withoutClosing := by
  intro ps _
  rcases List.eq_nil_or_concat ps with rfl | ⟨front, p, rfl⟩
  · exact ⟨[], rfl, fun _ _ => rfl⟩
  · by_cases hp : p = .plain ']'
    · subst hp
      refine ⟨front, by simp [tokens, reference?], fun f _ => ?_⟩
      simp [Field.withoutClosing]
    · refine ⟨front.concat p, rfl, fun f _ => if_neg fun hlast => ?_⟩
      rw [List.concat_eq_append, spelled_append] at hlast
      cases p with
      | plain c =>
        rw [spelled_plain, spelled_nil, List.getLast?_concat] at hlast
        exact hp (congrArg Piece.plain (Option.some.inj hlast))
      | token r =>
        obtain ⟨text, htext⟩ := exists_text_eq (f r)
        rw [spelled_token, spelled_nil, List.append_nil, htext, ← List.append_assoc,
          List.getLast?_concat] at hlast
        exact absurd (Option.some.inj hlast) (by decide)

theorem tokenWise_stripBrackets : TokenWise Field.stripBrackets := by
  rw [funext Field.stripBrackets_eq]
  exact tokenWise_withoutOpening.comp tokenWise_withoutClosing

/-! ## Bodies -/

open JobPipeline.Field (BodyState collapseFrom)

/-- Where a body stands behind a token. -/
def stateBehind : BodyState → BodyState
  | .escaped => .inside
  | state => state

def collapsed : BodyState → List Piece → List Piece
  | _, [] => []
  | state, .token r :: ps => .token r :: collapsed (stateBehind state) ps
  | state, .plain c :: ps =>
    if state.keeps c then .plain c :: collapsed (state.next c) ps else collapsed (state.next c) ps

theorem collapseFrom_append {cs : List Char}
    (h : ∀ c ∈ cs, isBlank c = false ∧ c ≠ '"' ∧ c ≠ '\\') (state : BodyState)
    (hstate : state ≠ .escaped) (rest : List Char) :
    collapseFrom state (cs ++ rest) = cs ++ collapseFrom state rest := by
  induction cs with
  | nil => rfl
  | cons c cs ih =>
    obtain ⟨⟨hblank, hquote, hslash⟩, hcs⟩ := List.forall_mem_cons.1 h
    have hkeeps : state.keeps c = true := by cases state <;> simp [BodyState.keeps, hblank]
    have hnext : state.next c = state := by
      cases state with
      | escaped => exact absurd rfl hstate
      | _ => simp [BodyState.next, hquote, hslash]
    rw [List.cons_append, collapseFrom, if_pos hkeeps, hnext, ih hcs, List.cons_append]

theorem collapseFrom_text {r : Reference} (h : r.Readable) (state : BodyState) (rest : List Char) :
    collapseFrom state (r.text ++ rest) = r.text ++ collapseFrom (stateBehind state) rest := by
  have hplain : ∀ c ∈ r.text, isBlank c = false ∧ c ≠ '"' ∧ c ≠ '\\' := by
    intro c hc
    have htext := h.isTextChar c hc
    refine ⟨?_, ?_, ?_⟩
    · simp only [Reference.isTextChar, Reference.isBodyChar_iff, Bool.or_eq_true, beq_iff_eq] at htext
      rcases htext with ((rfl | rfl) | rfl) | hrest | rfl
      · decide
      · decide
      · decide
      · exact Text.isBlank_of_isRest hrest
      · decide
    · rintro rfl
      exact absurd htext (by decide)
    · rintro rfl
      exact absurd htext (by decide)
  cases state with
  | escaped =>
    obtain ⟨tail, htail, -⟩ := h.text_eq
    rw [htail] at hplain ⊢
    have hrest := collapseFrom_append (List.forall_mem_cons.1 hplain).2 .inside (by decide) rest
    show '$' :: collapseFrom .inside (tail ++ rest) = '$' :: (tail ++ collapseFrom .inside rest)
    rw [hrest]
  | outside => exact collapseFrom_append hplain .outside (by decide) rest
  | inside => exact collapseFrom_append hplain .inside (by decide) rest

theorem tokenWise_collapseBody : TokenWise Field.collapseBody := by
  have hall : ∀ (ps : List Piece) (state : BodyState), Whole ps →
      tokens (collapsed state ps) = tokens ps ∧
        ∀ f, Keeps f → collapseFrom state (spelled f ps) = spelled f (collapsed state ps) := by
    intro ps
    induction ps with
    | nil => exact fun _ _ => ⟨rfl, fun _ _ => rfl⟩
    | cons p ps ih =>
      intro state hps
      cases p with
      | token r =>
        obtain ⟨hr, hps⟩ := List.forall_mem_cons.1 hps
        obtain ⟨htokens, hspelled⟩ := ih (stateBehind state) hps
        refine ⟨by rw [collapsed, tokens_token, tokens_token, htokens], fun f hf => ?_⟩
        rw [spelled_token, collapseFrom_text (hf r hr), hspelled f hf, collapsed, spelled_token]
      | plain c =>
        obtain ⟨htokens, hspelled⟩ := ih (state.next c) hps
        rw [collapsed]
        split
        · next hkeeps =>
          refine ⟨htokens, fun f hf => ?_⟩
          rw [spelled_plain, collapseFrom, if_pos hkeeps, hspelled f hf, spelled_plain]
        · next hdrops =>
          refine ⟨htokens, fun f hf => ?_⟩
          rw [spelled_plain, collapseFrom, if_neg hdrops, hspelled f hf]
  exact fun ps hps => ⟨collapsed .outside ps, hall ps .outside hps⟩

/-! ## Marks -/

/-- A mark that begins outside of tokens and has no dollar sign is taken out of plain
pieces only. -/
theorem tokenWise_removeAll {m : Char} {mark : List Char} (hm : Reference.isTextChar m = false)
    (hmark : '$' ∉ mark) : TokenWise (Text.removeAll (m :: mark)) := by
  intro ps
  induction hn : ps.length using Nat.strongRecOn generalizing ps with
  | _ n ih =>
  subst hn
  intro hps
  cases ps with
  | nil => exact ⟨[], rfl, fun _ _ => by rw [spelled_nil, Text.removeAll]⟩
  | cons p ps =>
    cases p with
    | token r =>
      obtain ⟨hr, hps⟩ := List.forall_mem_cons.1 hps
      obtain ⟨qs, hqs, hspelled⟩ := ih ps.length (Nat.lt_succ_self _) ps rfl hps
      refine ⟨.token r :: qs, by rw [tokens_token, tokens_token, hqs], fun f hf => ?_⟩
      have hnot : m ∉ (f r).text := fun hmem => by
        rw [(hf r hr).isTextChar m hmem] at hm
        cases hm
      rw [spelled_token, Text.removeAll_append_of_not_mem hnot, hspelled f hf, spelled_token]
    | plain c =>
      by_cases hbegins : c = m ∧ ∃ qs, ps = mark.map .plain ++ qs
      · obtain ⟨rfl, rest, rfl⟩ := hbegins
        have htokens : tokens (.plain c :: (mark.map .plain ++ rest)) = tokens rest := by
          rw [tokens_plain, tokens_append, tokens_map_plain, List.nil_append]
        have hless : rest.length < (Piece.plain c :: (mark.map .plain ++ rest)).length := by
          simp only [List.length_cons, List.length_append]
          omega
        obtain ⟨qs, hqs, hspelled⟩ := ih rest.length hless rest rfl
          (hps.of_subset fun r hr => by rwa [htokens])
        refine ⟨qs, hqs.trans htokens.symm, fun f hf => ?_⟩
        rw [spelled_plain, spelled_append, spelled_map_plain, Text.removeAll_mark_append, hspelled f hf]
      · have hrest : Whole ps := hps
        obtain ⟨qs, hqs, hspelled⟩ := ih ps.length (Nat.lt_succ_self _) ps rfl hrest
        refine ⟨.plain c :: qs, hqs, fun f hf => ?_⟩
        have hnone : Text.afterMark? (m :: mark) (c :: spelled f ps) = none := by
          refine Option.eq_none_iff_forall_ne_some.2 fun rest hsome => hbegins ?_
          obtain ⟨rfl, htext⟩ := List.cons.inj (Text.afterMark?_eq_some.1 hsome)
          obtain ⟨rs, hrs, -⟩ := eq_of_spelled_eq_append hmark htext
          exact ⟨rfl, rs, hrs⟩
        rw [spelled_plain, Text.removeAll]
        simp only [hnone, hspelled f hf, spelled_plain]

theorem tokenWise_unhighlight : TokenWise Field.unhighlight := by
  have hopen : TokenWise (Text.removeAll Field.openMark) :=
    @tokenWise_removeAll '<' "var>".toList (by decide) (by decide)
  have hclose : TokenWise (Text.removeAll Field.closeMark) :=
    @tokenWise_removeAll '<' "/var>".toList (by decide) (by decide)
  exact hopen.comp hclose

end Piece
end JobPipeline
