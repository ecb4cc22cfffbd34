import JobPipeline.Proofs.Document.Values
import JobPipeline.Proofs.Json.Accepting

/-
A body without its blanks is the same JSON.

A part of a text leaves the reading of a body where it found it if it closes the literals
that it opens.  The parts of the grammar do, so a body loses its blanks part by part: each
part is a part of the same form again, and the gaps between parts are empty.
-/
namespace JobPipeline
namespace Field

open Json (Form Tree Written Spaces IsLiteral IsNumeral Spelling Scope readWithin?)

/-! ## Parts of a body -/

theorem collapseFrom_append_foldl (state : BodyState) (cs rest : List Char) :
    collapseFrom state (cs ++ rest) = collapseFrom state cs ++ collapseFrom (cs.foldl BodyState.next state) rest := by
  induction cs generalizing state with
  | nil => rfl
  | cons c cs ih =>
    rw [List.cons_append, collapseFrom, collapseFrom, List.foldl_cons]
    split
    · rw [ih, List.cons_append]
    · exact ih _

/-- Every literal that is opened in the text is closed in it. -/
def Settled (cs : List Char) : Prop := cs.foldl BodyState.next .outside = .outside

theorem Settled.append {cs rest : List Char} (h : Settled cs) (hrest : Settled rest) : Settled (cs ++ rest) := by
  rw [Settled, List.foldl_append, h, hrest]

theorem settled_of_forall {cs : List Char} (h : ∀ c ∈ cs, c ≠ '"') : Settled cs := by
  induction cs with
  | nil => rfl
  | cons c cs ih =>
    rw [List.forall_mem_cons] at h
    rw [Settled, List.foldl_cons, BodyState.next, if_neg h.1]
    exact ih h.2

theorem collapseBody_append {cs : List Char} (h : Settled cs) (rest : List Char) :
    collapseBody (cs ++ rest) = collapseBody cs ++ collapseBody rest := by
  rw [collapseBody, collapseFrom_append_foldl, h]
  rfl

/-- A character that stays where it stands, outside of literals, and opens none. -/
def Solid (c : Char) : Prop := Text.isBlank c = false ∧ c ≠ '"'

instance (c : Char) : Decidable (Solid c) := inferInstanceAs (Decidable (_ ∧ _))

theorem solid_of_all {cs : List Char} (h : cs.all (fun c => decide (Solid c)) = true) : ∀ c ∈ cs, Solid c :=
  fun c hc => of_decide_eq_true (List.all_eq_true.1 h c hc)

theorem Solid.collapseBody_cons {c : Char} (h : Solid c) (cs : List Char) :
    collapseBody (c :: cs) = c :: collapseBody cs := by
  rw [collapseBody, collapseFrom, BodyState.keeps, h.1, BodyState.next, if_neg h.2]
  rfl

theorem Solid.settled_cons {c : Char} (h : Solid c) {cs : List Char} (hcs : Settled cs) : Settled (c :: cs) := by
  rw [Settled, List.foldl_cons, BodyState.next, if_neg h.2]
  exact hcs

theorem collapseBody_of_solid {cs : List Char} (h : ∀ c ∈ cs, Solid c) : collapseBody cs = cs := by
  induction cs with
  | nil => rfl
  | cons c cs ih =>
    rw [List.forall_mem_cons] at h
    rw [h.1.collapseBody_cons, ih h.2]

theorem isBlank_of_isSpace {c : Char} (h : Json.isSpace c = true) : Text.isBlank c = true := by
  simp only [Json.isSpace, Bool.or_eq_true, beq_iff_eq] at h
  rcases h with ((rfl | rfl) | rfl) | rfl <;> rfl

theorem settled_spaces {gap : List Char} (h : Spaces gap) : Settled gap := by
  refine settled_of_forall fun c hc => ?_
  rintro rfl
  cases h _ hc

theorem collapseBody_spaces {gap : List Char} (h : Spaces gap) : collapseBody gap = [] := by
  induction gap with
  | nil => rfl
  | cons c gap ih =>
    rw [Spaces, List.forall_mem_cons] at h
    have hquote : c ≠ '"' := by
      rintro rfl
      cases h.1
    rw [collapseBody, collapseFrom, BodyState.keeps, isBlank_of_isSpace h.1, BodyState.next, if_neg hquote]
    exact ih h.2

/-! ## Numerals and literals -/

theorem solid_of_isDigit {c : Char} (h : c.isDigit = true) : Solid c := by
  simp only [Char.isDigit, Bool.and_eq_true, decide_eq_true_eq, ge_iff_le, UInt32.le_iff_toNat_le] at h
  have hlow : 48 ≤ c.toNat := h.1
  have hhigh : c.toNat ≤ 57 := h.2
  refine ⟨?_, ?_⟩
  · simp only [Text.isBlank, Bool.or_eq_false_iff, Bool.and_eq_false_iff, decide_eq_false_iff_not,
      beq_eq_false_iff_ne]
    omega
  · rintro rfl
    exact absurd hlow (by decide)

theorem solid_numeral {s : Spelling} {body : List Char} (h : IsNumeral s body) : ∀ c ∈ body, Solid c := by
  have hdigits : ∀ {ds : List Char}, Json.Digits ds → ∀ c ∈ ds, Solid c := fun hds c hc =>
    solid_of_isDigit (hds.all c hc)
  cases h with
  | parts hwhole _ hfraction hpower =>
    rw [List.forall_mem_append, List.forall_mem_append]
    refine ⟨hdigits hwhole, ?_, ?_⟩
    · cases hfraction with
      | none => exact List.forall_mem_nil _
      | digits hpart => exact List.forall_mem_cons.2 ⟨by decide, hdigits hpart⟩
    · cases hpower with
      | none => exact List.forall_mem_nil _
      | digits hletter hsign hds =>
        rw [List.forall_mem_cons, List.forall_mem_append]
        refine ⟨?_, ?_, hdigits hds⟩
        · rcases hletter with rfl | rfl <;> decide
        · cases hsign <;> exact solid_of_all (by decide)

/-- Inside of a literal every character stays, and none of its inside closes it. -/
theorem inside_literal {inner : List Char} (h : IsLiteral inner) :
    collapseFrom .inside inner = inner ∧ inner.foldl BodyState.next .inside = .inside := by
  have hplain : ∀ {c : Char} {cs : List Char}, c ≠ '"' → c ≠ '\\' →
      collapseFrom .inside cs = cs ∧ cs.foldl BodyState.next .inside = .inside →
      collapseFrom .inside (c :: cs) = c :: cs ∧ (c :: cs).foldl BodyState.next .inside = .inside := by
    intro c cs hquote hescape ih
    have hnext : BodyState.inside.next c = .inside := by rw [BodyState.next, if_neg hescape, if_neg hquote]
    rw [List.foldl_cons, hnext, collapseFrom, hnext, ih.1, ih.2]
    exact ⟨rfl, rfl⟩
  have hescaped : ∀ {e : Char} {cs : List Char},
      collapseFrom .inside cs = cs ∧ cs.foldl BodyState.next .inside = .inside →
      collapseFrom .inside ('\\' :: e :: cs) = '\\' :: e :: cs ∧
        ('\\' :: e :: cs).foldl BodyState.next .inside = .inside := by
    intro e cs ih
    refine ⟨?_, ih.2⟩
    show '\\' :: e :: collapseFrom .inside cs = '\\' :: e :: cs
    rw [ih.1]
  induction h with
  | nil => exact ⟨rfl, rfl⟩
  | plain hquote hescape _ _ ih => exact hplain hquote hescape ih
  | letter _ _ ih => exact hescaped ih
  | @number a b c d cs hdigits _ ih =>
    have hhex : ∀ x ∈ [a, b, c, d], x ≠ '"' ∧ x ≠ '\\' := by
      intro x hx
      have hvalue := hdigits x hx
      refine ⟨?_, ?_⟩
      all_goals
        rintro rfl
        cases hvalue
    simp only [List.forall_mem_cons] at hhex
    obtain ⟨ha, hb, hc, hd, -⟩ := hhex
    exact hescaped (hplain ha.1 ha.2 (hplain hb.1 hb.2 (hplain hc.1 hc.2 (hplain hd.1 hd.2 ih))))

theorem settled_quotedChars {inner : List Char} (h : IsLiteral inner) : Settled (Json.quotedChars inner) := by
  have hinside := (inside_literal h).2
  rw [Settled, Json.quotedChars, List.foldl_cons, List.foldl_append]
  show ['"'].foldl BodyState.next (inner.foldl BodyState.next .inside) = .outside
  rw [hinside]
  rfl

theorem collapseBody_quotedChars {inner : List Char} (h : IsLiteral inner) :
    collapseBody (Json.quotedChars inner) = Json.quotedChars inner := by
  obtain ⟨hkept, hinside⟩ := inside_literal h
  show '"' :: collapseFrom .inside (inner ++ ['"']) = '"' :: (inner ++ ['"'])
  rw [collapseFrom_append_foldl, hkept, hinside]
  rfl

/-! ## The grammar, part by part -/

/-- A text that is in the grammar with its blanks is in it without them, as the same. -/
def Collapses (form : Form) (text : List Char) : Prop := Settled text ∧ Written form (collapseBody text)

theorem collapses_of_solid {form : Form} {text : List Char} (hsolid : ∀ c ∈ text, Solid c)
    (h : Written form text) : Collapses form text := by
  refine ⟨settled_of_forall fun c hc => (hsolid c hc).2, ?_⟩
  rw [collapseBody_of_solid hsolid]
  exact h

section Parts

variable {text more : List Char}

theorem settled_singleton {c : Char} (h : Solid c) : Settled [c] := h.settled_cons rfl

/-- A text between two brackets. -/
theorem collapseBody_between {opening closing : Char} (hopening : Solid opening) (hclosing : Solid closing)
    (h : Settled text) :
    collapseBody (opening :: (text ++ [closing])) = opening :: (collapseBody text ++ [closing]) := by
  rw [hopening.collapseBody_cons, collapseBody_append h, hclosing.collapseBody_cons]
  rfl

theorem settled_between {opening closing : Char} (hopening : Solid opening) (hclosing : Solid closing)
    (h : Settled text) : Settled (opening :: (text ++ [closing])) :=
  hopening.settled_cons (h.append (settled_singleton hclosing))

/-- Two texts with a separator between them. -/
theorem collapseBody_separated {c : Char} (hc : Solid c) (h : Settled text) :
    collapseBody (text ++ c :: more) = collapseBody text ++ c :: collapseBody more := by
  rw [collapseBody_append h, hc.collapseBody_cons]

theorem settled_separated {c : Char} (hc : Solid c) (h : Settled text) (hmore : Settled more) :
    Settled (text ++ c :: more) := h.append (hc.settled_cons hmore)

theorem collapses_numeral {s : Spelling} {body : List Char} (h : IsNumeral s body) :
    Collapses (.value (.numeral s.negative body)) (Json.signChars s.negative ++ body) := by
  refine collapses_of_solid ?_ (.numeral h)
  rw [List.forall_mem_append]
  refine ⟨?_, solid_numeral h⟩
  cases s.negative <;> exact solid_of_all (by decide)

theorem collapses_element {t : Tree} {before after : List Char} (hbefore : Spaces before)
    (hafter : Spaces after) (ih : Collapses (.value t) text) :
    Collapses (.element t) (before ++ (text ++ after)) := by
  have hnone : Spaces [] := List.forall_mem_nil _
  refine ⟨(settled_spaces hbefore).append (ih.1.append (settled_spaces hafter)), ?_⟩
  rw [collapseBody_append (settled_spaces hbefore), collapseBody_append ih.1, collapseBody_spaces hbefore,
    collapseBody_spaces hafter]
  exact .element hnone ih.2 hnone

theorem collapses_member {t : Tree} {key before after : List Char} (hbefore : Spaces before)
    (hkey : IsLiteral key) (hafter : Spaces after) (ih : Collapses (.element t) text) :
    Collapses (.member key t) (before ++ (Json.quotedChars key ++ (after ++ ':' :: text))) := by
  have hnone : Spaces [] := List.forall_mem_nil _
  have hcolon : Solid ':' := by decide
  refine ⟨(settled_spaces hbefore).append ((settled_quotedChars hkey).append
    (settled_separated hcolon (settled_spaces hafter) ih.1)), ?_⟩
  rw [collapseBody_append (settled_spaces hbefore), collapseBody_append (settled_quotedChars hkey),
    collapseBody_separated hcolon (settled_spaces hafter), collapseBody_spaces hbefore,
    collapseBody_spaces hafter, collapseBody_quotedChars hkey]
  exact .member hnone hkey hnone ih.2

end Parts

theorem collapses_of_written {form : Form} {text : List Char} (h : Written form text) :
    Collapses form text := by
  have hnone : Spaces [] := List.forall_mem_nil _
  have hcomma : Solid ',' := by decide
  have hopening : Solid '[' := by decide
  have hclosing : Solid ']' := by decide
  have hopeningBrace : Solid '\x7b' := by decide
  have hclosingBrace : Solid '\x7d' := by decide
  induction h with
  | null => exact collapses_of_solid (solid_of_all (by decide)) .null
  | isTrue => exact collapses_of_solid (solid_of_all (by decide)) .isTrue
  | isFalse => exact collapses_of_solid (solid_of_all (by decide)) .isFalse
  | numeral hbody => exact collapses_numeral hbody
  | literal hinner =>
    refine ⟨settled_quotedChars hinner, ?_⟩
    rw [collapseBody_quotedChars hinner]
    exact .literal hinner
  | noItems hgap =>
    refine ⟨settled_between hopening hclosing (settled_spaces hgap), ?_⟩
    rw [collapseBody_between hopening hclosing (settled_spaces hgap), collapseBody_spaces hgap]
    exact .noItems hnone
  | array _ ih =>
    refine ⟨settled_between hopening hclosing ih.1, ?_⟩
    rw [collapseBody_between hopening hclosing ih.1]
    exact .array ih.2
  | noMembers hgap =>
    refine ⟨settled_between hopeningBrace hclosingBrace (settled_spaces hgap), ?_⟩
    rw [collapseBody_between hopeningBrace hclosingBrace (settled_spaces hgap), collapseBody_spaces hgap]
    exact .noMembers hnone
  | object _ ih =>
    refine ⟨settled_between hopeningBrace hclosingBrace ih.1, ?_⟩
    rw [collapseBody_between hopeningBrace hclosingBrace ih.1]
    exact .object ih.2
  | element hbefore _ hafter ih => exact collapses_element hbefore hafter ih
  | lastItem _ ih => exact ⟨ih.1, .lastItem ih.2⟩
  | item _ _ ih ihmore =>
    refine ⟨settled_separated hcomma ih.1 ihmore.1, ?_⟩
    rw [collapseBody_separated hcomma ih.1]
    exact .item ih.2 ihmore.2
  | member hbefore hkey hafter _ ih => exact collapses_member hbefore hkey hafter ih
  | lastMember _ ih => exact ⟨ih.1, .lastMember ih.2⟩
  | members _ _ ih ihmore =>
    refine ⟨settled_separated hcomma ih.1 ihmore.1, ?_⟩
    rw [collapseBody_separated hcomma ih.1]
    exact .members ih.2 ihmore.2

/-! ## Any text -/

theorem filter_collapseFrom (state : BodyState) (cs : List Char) :
    (collapseFrom state cs).filter (fun c => !Text.isBlank c) = cs.filter fun c => !Text.isBlank c := by
  induction cs generalizing state with
  | nil => rfl
  | cons c cs ih =>
    rw [collapseFrom]
    split
    · rw [List.filter_cons, List.filter_cons, ih]
    · next hdrop =>
      have hblank : Text.isBlank c = true := by
        cases state with
        | outside => simpa [BodyState.keeps] using hdrop
        | inside | escaped => exact absurd rfl hdrop
      rw [ih, List.filter_cons_of_neg (by rw [hblank]; decide)]

/-- Without its blanks a body that is JSON is JSON, spelled as before and with the same value
for every reader, where a text is JSON if a reader that takes in nothing of it passes over it;
and whatever it is, taking the blanks out again changes nothing, and no other character goes. -/
theorem collapseBody_keeps_json :
    (∀ s : String, (readWithin? .nothing s).isSome = true ↔ ∃ t, Written (.element t) s.toList) ∧
      (∀ (t : Tree) (cs : List Char), Written (.element t) cs → Written (.element t) (collapseBody cs)) ∧
      (∀ (scope : Scope) (s : String) (v : Json), readWithin? scope s = some v →
        readWithin? scope (String.ofList (collapseBody s.toList)) = some v) ∧
      (∀ cs, collapseBody (collapseBody cs) = collapseBody cs) ∧
      ∀ cs, (collapseBody cs).filter (fun c => !Text.isBlank c) = cs.filter fun c => !Text.isBlank c := by
  refine ⟨fun s => Json.isSome_readWithin?_nothing, fun t cs h => (collapses_of_written h).2, ?_,
    collapseBody_collapseBody, filter_collapseFrom .outside⟩
  intro scope s v h
  obtain ⟨t, htext, hwithin⟩ := Json.readWithin?_eq_some_iff.1 h
  refine Json.readWithin?_eq_some_iff.2 ⟨t, ?_, hwithin⟩
  rw [String.toList_ofList]
  exact (collapses_of_written htext).2

theorem collapseBody_keeps_json_spaced :
    Written (.element (.array [.literal ['a', ' ']])) ['[', ' ', '"', 'a', ' ', '"', ']'] ∧
      Written (.element (.array [.literal ['a', ' ']])) (collapseBody ['[', ' ', '"', 'a', ' ', '"', ']']) ∧
      readWithin? .everything "\x7b \"a \" : [1 , 2] \x7d" =
        some (.object [("a ", .array [.number (.whole 1), .number (.whole 2)])]) ∧
      readWithin? .everything (String.ofList (collapseBody "\x7b \"a \" : [1 , 2] \x7d".toList)) =
        some (.object [("a ", .array [.number (.whole 1), .number (.whole 2)])]) := by
  have hnone : Spaces [] := List.forall_mem_nil _
  have hblank : Spaces [' '] := List.forall_mem_singleton.2 rfl
  have hinner : IsLiteral ['a', ' '] := .plain (by decide) (by decide) (by decide)
    (.plain (by decide) (by decide) (by decide) .nil)
  have hwritten : Written (.element (.array [.literal ['a', ' ']])) ['[', ' ', '"', 'a', ' ', '"', ']'] :=
    .element hnone (.array (.lastItem (.element hblank (.literal hinner) hnone))) hnone
  have hread : readWithin? .everything "\x7b \"a \" : [1 , 2] \x7d" =
      some (.object [("a ", .array [.number (.whole 1), .number (.whole 2)])]) := by decide +kernel
  exact ⟨hwritten, collapseBody_keeps_json.2.1 _ _ hwritten, hread,
    collapseBody_keeps_json.2.2.1 _ _ _ hread⟩

/-- Of a text that is not JSON the blanks may be all that keeps two numerals apart. -/
example : readWithin? .everything "1 2" = none ∧
    readWithin? .everything (String.ofList (collapseBody "1 2".toList)) = some (.number (.whole 12)) := by
  decide +kernel

end Field
end JobPipeline
