import JobPipeline.Proofs.Dict
import JobPipeline.Proofs.Field.Tokens
import JobPipeline.Resolve

/-
What a field text is resolved to.

A text without tokens is its own value, whatever the variables are.  A name and the
token of that name are told apart by the variables: the name is the same value with
any of them.
-/
namespace JobPipeline

open JobPipeline.Field (token Unmarked)

/-! ## Blanks -/

theorem Text.trimmed_of_isWord {name : List Char} (h : Identifier.isWord name = true) :
    Text.Trimmed name := by
  have hrest := Field.isRest_of_isWord h
  constructor
  · exact fun c hc => isBlank_of_isRest (hrest c (List.mem_of_mem_head? hc))
  · exact fun c hc => isBlank_of_isRest (hrest c (List.mem_of_mem_getLast? hc))

namespace Json

theorem spelling?_of_blank {cs : List Char} (h : ∀ c ∈ cs, Text.isBlank c = true) (negative : Bool) :
    spelling? negative cs = none := by
  have hwhole : cs.takeWhile Char.isDigit = [] := by
    cases cs with
    | nil => rfl
    | cons c cs =>
      have hdigit : c.isDigit = false := by
        rw [Bool.eq_false_iff]
        intro hdigit
        have hplain := Text.isBlank_of_isRest (c := c) (by simp [Identifier.isRest, Char.isAlphanum, hdigit])
        rw [h c List.mem_cons_self] at hplain
        cases hplain
      rw [List.takeWhile_cons, hdigit]
      rfl
  rw [spelling?, hwhole]
  exact if_pos (.inl rfl)

theorem value?_of_blank {cs : List Char} (h : ∀ c ∈ cs, Text.isBlank c = true) (fuel depth : Nat)
    (scope : Scope) : value? fuel depth scope cs = none := by
  cases fuel with
  | zero => rfl
  | succ fuel =>
    have hskip : ∀ c ∈ skipSpace cs, Text.isBlank c = true :=
      fun c hc => h c ((List.dropWhile_sublist isSpace).subset hc)
    have hhead : ∀ {c : Char} {rest : List Char}, skipSpace cs = c :: rest → Text.isBlank c = true :=
      fun heq => hskip _ (heq ▸ List.mem_cons_self)
    rw [value?]
    split
    · next heq => exact absurd (hhead heq) (by decide)
    · next heq => exact absurd (hhead heq) (by decide)
    · next heq => exact absurd (hhead heq) (by decide)
    · next heq => exact absurd (hhead heq) (by decide)
    · next heq => exact absurd (hhead heq) (by decide)
    · next heq => exact absurd (hhead heq) (by decide)
    · next heq => exact absurd (hhead heq) (by decide)
    · simp only [numberTail?, spelling?_of_blank hskip]

/-- A blank text is no JSON. -/
theorem valueOf?_of_blank {s : String} (h : Text.blank s = true) : valueOf? s = none := by
  have hvalue := value?_of_blank (List.all_eq_true.1 h) (2 * s.toList.length + 2) mostDepth .everything
  rw [valueOf?, read?, readWithin?]
  simp only [hvalue, Option.map_none]

end Json

namespace Vars

theorem resolveText_plain {s : String} (hmarks : Unmarked s.toList) (h : '$' ∉ s.toList) (vars : Vars) :
    vars.resolveText s = .string s := by
  have hnone : (pieces s.toList).filterMap Piece.reference? = [] := Field.references_eq_nil h
  rw [resolveText]
  simp only [hmarks.unhighlight, hnone, String.ofList_toList]

theorem unmarked_around {r : Reference} (h : r.Readable) {before behind : List Char}
    (hbefore : ∀ b ∈ before, Text.isBlank b = true) (hbehind : ∀ b ∈ behind, Text.isBlank b = true) :
    Unmarked (before ++ r.text ++ behind) := by
  refine Field.unmarked_of_not_mem fun hmem => ?_
  simp only [List.mem_append] at hmem
  rcases hmem with (hmem | hmem) | hmem
  · exact absurd (hbefore _ hmem) (by decide)
  · exact h.angle_not_mem_text hmem
  · exact absurd (hbehind _ hmem) (by decide)

/-- A text that is one token, with blanks around it, is the value it refers to. -/
theorem resolveText_reference {r : Reference} (h : r.Readable) {before behind : List Char}
    (hbefore : ∀ b ∈ before, Text.isBlank b = true) (hbehind : ∀ b ∈ behind, Text.isBlank b = true)
    (vars : Vars) : vars.resolveText (String.ofList (before ++ r.text ++ behind)) =
      (vars.lookup r).getD .null := by
  have hpieces : pieces (before ++ r.text ++ behind) =
      before.map .plain ++ .token r :: behind.map .plain := by
    have hdollar : '$' ∉ behind := fun hmem => absurd (hbehind _ hmem) (by decide)
    rw [List.append_assoc, pieces_append_of_not_mem fun hmem => absurd (hbefore _ hmem) (by decide),
      h.pieces_text, pieces_of_not_mem hdollar]
  have hfree : ∀ cs : List Char, (cs.map Piece.plain).filterMap Piece.reference? = [] := by
    intro cs
    rw [List.filterMap_map]
    exact List.filterMap_eq_nil_iff.2 fun _ _ => rfl
  have hreferences :
      (before.map Piece.plain ++ Piece.token r :: behind.map Piece.plain).filterMap
        Piece.reference? = [r] := by
    rw [List.filterMap_append, List.filterMap_cons, hfree, hfree]
    rfl
  have hblank : (before.map Piece.plain ++ Piece.token r :: behind.map Piece.plain).all
      (fun p => p.text.all Text.isBlank || p.reference?.isSome) = true := by
    simp only [List.all_append, List.all_cons, List.all_map, Bool.and_eq_true, List.all_eq_true]
    refine ⟨fun b hb => ?_, ?_, fun b hb => ?_⟩
    · simp [Piece.text, hbefore b hb]
    · simp [Piece.reference?]
    · simp [Piece.text, hbehind b hb]
  rw [resolveText, String.toList_ofList]
  simp only [(unmarked_around h hbefore hbehind).unhighlight, hpieces, hreferences, hblank, if_true]

theorem resolveText_token {name : List Char} (h : Identifier.isWord name = true) (vars : Vars) :
    vars.resolveText (String.ofList (token name)) =
      (vars.lookup ⟨String.ofList name, []⟩).getD .null := by
  have hblank : ∀ b ∈ ([] : List Char), Text.isBlank b = true := fun _ hb => absurd hb List.not_mem_nil
  have hvalue := resolveText_reference (Reference.readable_of_isWord h) hblank hblank vars
  rwa [List.append_nil, List.nil_append, ← Field.token_eq_text] at hvalue

theorem lookup_nil (vars : Vars) (name : String) : vars.lookup ⟨name, []⟩ = vars.find? name := by
  cases h : vars.find? name <;> simp [lookup, h, Json.descend?]

/-- A name is the same value with any variables. -/
theorem resolveItem_word {item : List Char} (h : Identifier.isWord item = true) (vars : Vars) :
    vars.resolveItem item = Json.literal (.string (String.ofList item)) := by
  have hrest := Field.isRest_of_isWord h
  have hnot : ∀ d, Identifier.isRest d = false → d ∉ item := fun d hd hmem => by
    rw [hrest d hmem] at hd
    cases hd
  have hvalue : vars.resolveText (String.ofList item) = .string (String.ofList item) := by
    refine resolveText_plain ?_ ?_ vars <;> rw [String.toList_ofList]
    · exact Field.unmarked_of_not_mem (hnot '<' (by decide))
    · exact hnot '$' (by decide)
  rw [resolveItem, Text.trim_eq_self (Text.trimmed_of_isWord h)]
  split
  · exact absurd List.mem_cons_self (hnot '"' (by decide))
  · rw [hvalue]

theorem resolveItem_token {name : List Char} (h : Identifier.isWord name = true) (vars : Vars) :
    vars.resolveItem (token name) = ((vars.find? (String.ofList name)).getD .null).literal := by
  rw [resolveItem, Text.trim_eq_self (Field.trimmed_token name)]
  show (vars.resolveText (String.ofList (token name))).literal = _
  rw [resolveText_token h, lookup_nil]

/-- Some variables tell a name from its token. -/
theorem exists_resolveItem_ne {name : List Char} (h : Identifier.isWord name = true) :
    ∃ vars : Vars, vars.resolveItem name ≠ vars.resolveItem (token name) := by
  by_cases hunset : resolveItem Dict.empty name = resolveItem Dict.empty (token name)
  · -- Unset, the token is null, and it can be set to something else.
    refine ⟨Dict.empty.insert (String.ofList name) (.array []), fun hset => ?_⟩
    rw [resolveItem_word h, resolveItem_token h] at hunset hset
    rw [hunset, Dict.find?_insert_self] at hset
    cases hset
  · exact ⟨Dict.empty, hunset⟩

end Vars
end JobPipeline
