import JobPipeline.Proofs.Field.Lists

/-
Angle brackets of a list.

Whether angle brackets close is a matter of these characters alone.  Writing a
list moves blanks, commas, square brackets and tokens around but no angle bracket,
so a list that can stand between angle brackets can still do so once it has been
written.
-/
namespace JobPipeline
namespace Field

open Text (isBlank trim)

def isAngle (c : Char) : Bool := c == '<' || c == '>'

def angles (cs : List Char) : List Char := cs.filter isAngle

theorem anglesCloseFrom_angles (depth : Nat) (cs : List Char) :
    anglesCloseFrom depth (angles cs) = anglesCloseFrom depth cs := by
  induction cs generalizing depth with
  | nil => rfl
  | cons c cs ih =>
    by_cases hopen : c = '<'
    · subst hopen
      have hcons : angles ('<' :: cs) = '<' :: angles cs := rfl
      rw [hcons, anglesCloseFrom.eq_def, anglesCloseFrom.eq_def depth]
      exact ih (depth + 1)
    · by_cases hclose : c = '>'
      · subst hclose
        have hcons : angles ('>' :: cs) = '>' :: angles cs := rfl
        rw [hcons, anglesCloseFrom.eq_def, anglesCloseFrom.eq_def depth]
        cases depth with
        | zero => rfl
        | succ depth => exact ih depth
      · have hcons : angles (c :: cs) = angles cs := by
          rw [angles, List.filter_cons_of_neg]
          · rfl
          · simp [isAngle, hopen, hclose]
        rw [hcons, ih, anglesCloseFrom.eq_def depth (c :: cs)]
        simp only [if_neg hopen, if_neg hclose]

theorem anglesBalanced_congr {cs ds : List Char} (h : angles cs = angles ds) :
    anglesBalanced cs = anglesBalanced ds := by
  rw [anglesBalanced, anglesBalanced, ← anglesCloseFrom_angles, h, anglesCloseFrom_angles]

theorem angles_append (cs ds : List Char) : angles (cs ++ ds) = angles cs ++ angles ds :=
  List.filter_append _ _

theorem angles_of_class {p : Char → Bool} {cs : List Char} (h : ∀ c ∈ cs, p c = true)
    (hp : p '<' = false ∧ p '>' = false) : angles cs = [] := by
  refine List.filter_eq_nil_iff.2 fun c hc hangle => ?_
  rw [isAngle, Bool.or_eq_true, beq_iff_eq, beq_iff_eq] at hangle
  have hclass := h c hc
  rcases hangle with rfl | rfl
  · rw [hp.1] at hclass
    cases hclass
  · rw [hp.2] at hclass
    cases hclass

theorem angles_trim (cs : List Char) : angles (trim cs) = angles cs := by
  obtain ⟨before, behind, hcut, hbefore, hbehind⟩ := Text.exists_trim cs
  have hnone : ∀ {bs : List Char}, (∀ b ∈ bs, isBlank b = true) → angles bs = [] :=
    fun h => angles_of_class h (by decide)
  conv => rhs; rw [hcut]
  rw [angles_append, angles_append, hnone hbefore, hnone hbehind, List.append_nil, List.nil_append]

theorem angles_comma : angles [','] = [] := rfl

theorem angles_joinWith {sep : List Char} (hsep : angles sep = []) (items : List (List Char)) :
    angles (Text.joinWith sep items) = items.flatMap angles := by
  induction items with
  | nil => rfl
  | cons i items ih =>
    cases items with
    | nil => simp [Text.joinWith]
    | cons j items =>
      rw [Text.joinWith, angles_append, angles_append, hsep, ih, List.append_nil]
      exact List.flatMap_cons.symm

theorem angles_stripBrackets (cs : List Char) : angles (stripBrackets cs) = angles cs := by
  have hopening : angles (withoutOpening cs) = angles cs := by
    rw [withoutOpening]
    split
    · next h =>
      obtain ⟨rest, rfl⟩ := List.head?_eq_some_iff.1 h
      rfl
    · rfl
  rw [stripBrackets_eq, withoutClosing, ← hopening]
  split
  · next h =>
    obtain ⟨front, hfront⟩ := List.getLast?_eq_some_iff.1 h
    rw [hfront, List.dropLast_concat, angles_append]
    exact (List.append_nil _).symm
  · rfl

/-- Items keep the angle brackets of the list they are read from. -/
theorem angles_arrayItems (cs : List Char) : (arrayItems cs).flatMap angles = angles cs := by
  have hinner : angles (stripBrackets (trim cs)) = angles cs := by
    rw [angles_stripBrackets, angles_trim]
  rw [arrayItems]
  split
  · next hblank =>
    rw [← hinner]
    exact (angles_of_class (List.all_eq_true.1 hblank) (by decide)).symm
  · have hkept : ∀ parts : List (List Char),
        ((parts.map trim).filter (· ≠ [])).flatMap angles = parts.flatMap angles := by
      intro parts
      induction parts with
      | nil => rfl
      | cons part parts ih =>
        rw [List.map_cons, List.flatMap_cons]
        by_cases hnil : trim part = []
        · have hpart : angles part = [] := by
            rw [← angles_trim, hnil]
            rfl
          rw [List.filter_cons_of_neg (by simpa using hnil), ih, hpart, List.nil_append]
        · rw [List.filter_cons_of_pos (by simpa using hnil), List.flatMap_cons, ih, angles_trim]
    rw [hkept, ← hinner, ← angles_joinWith angles_comma, joinWith_splitTopLevel]

theorem angles_renderArray (items : List (List Char)) :
    angles (renderArray items) = items.flatMap angles := by
  rw [renderArray]
  split
  · next hnil =>
    rw [hnil]
    rfl
  · rw [angles_append, angles_append, angles_joinWith rfl]
    exact List.append_nil _

theorem angles_token {name : List Char} (h : Identifier.isWord name = true) :
    angles (token name) = [] := by
  have hname : angles name = [] := angles_of_class (isRest_of_isWord h) (by decide)
  have htoken : token name = ['$', '('] ++ (name ++ [')']) := rfl
  rw [htoken, angles_append, angles_append, hname]
  rfl

/-- Tokens bring no angle brackets into a list. -/
theorem angles_tokens {names : List (List Char)}
    (h : ∀ name ∈ names, Identifier.isWord name = true) :
    angles (renderArray (names.map token)) = [] := by
  rw [angles_renderArray, List.flatMap_map]
  exact List.flatMap_eq_nil_iff.2 fun name hname => angles_token (h name hname)

/-- A written list has the angle brackets of the text it was read from. -/
theorem angles_elements (g : TaskGraph) (raw : List Char) :
    angles (renderArray (g.elements raw)) = angles raw := by
  rw [angles_renderArray, TaskGraph.elements, List.flatMap_map, ← angles_arrayItems raw]
  have hsame : ∀ item, angles (g.element item) = angles item := by
    intro item
    rcases g.element_eq item with heq | ⟨heq, hvalid, _⟩
    · rw [heq]
    · have hword := isWord_of_isValid_ofList hvalid
      rw [heq, angles_token hword, angles_of_class (isRest_of_isWord hword) (by decide)]
  simp only [hsame]

end Field
end JobPipeline
