import JobPipeline.Field.Value
import JobPipeline.Proofs.Field.Retargeting
import JobPipeline.Resolve

/-
Highlighting a text that is highlighted.

The marks of a highlighted text stand apart from the text: none begins in one and ends in the
other, and none breaks a token or makes one.  So the tokens stay as they are, and taking the
marks out comes to taking them out of the text once more.  That changes nothing exactly where
no mark was left the first time.  One may be left, for what stands on both sides of a mark can
be a mark when it comes together.

Every reader of field text takes the marks out first, so two texts that come to the same
without marks are read alike, whatever the values are and whatever the style of the field.
A highlighted text comes to the text it was made from exactly if there was no mark in that
text: a part of a mark may stand next to a token and is left where it stands.
-/
namespace JobPipeline

open Piece (spelled tokens Whole)

theorem Text.not_infix_of_removeAll_eq {m : Char} {mark cs : List Char} (h : removeAll (m :: mark) cs = cs) :
    ¬m :: mark <:+: cs := by
  fun_induction removeAll (m :: mark) cs with
  | case1 => simp
  | case2 c cs rest _ _ =>
    have hshort := (removeAll_sublist (m :: mark) (cs.drop ((m :: mark).length - 1))).length_le
    rw [h, List.length_cons, List.length_drop] at hshort
    omega
  | case3 c cs hafter ih =>
    rw [List.infix_cons_iff, not_or]
    constructor
    · rintro ⟨rest, hrest⟩
      rw [afterMark?_eq_some.2 hrest.symm] at hafter
      cases hafter
    · exact ih (List.cons.inj h).2

/-- Text in front of a mark that repeats its head nowhere is left for itself. -/
theorem Text.removeAll_append_mark {m : Char} {mark : List Char} (h : m ∉ mark) (cs ds : List Char) :
    removeAll (m :: mark) (cs ++ m :: (mark ++ ds)) = removeAll (m :: mark) cs ++ removeAll (m :: mark) ds := by
  rw [removeAll_append h, removeAll_mark_append]

namespace Field

/-- The texts without marks are those that taking marks out leaves alone. -/
theorem unmarked_iff {cs : List Char} : Unmarked cs ↔ unhighlight cs = cs := by
  constructor
  · exact Unmarked.unhighlight
  · intro h
    have hopen : (Text.removeAll openMark cs).Sublist cs := Text.removeAll_sublist _ _
    have hclose : (unhighlight cs).Sublist (Text.removeAll openMark cs) := Text.removeAll_sublist _ _
    have hsame : Text.removeAll openMark cs = cs := by
      rw [h] at hclose
      exact hopen.antisymm hclose
    have hrest : Text.removeAll closeMark cs = cs := by
      rw [unhighlight, hsame] at h
      exact h
    exact ⟨Text.not_infix_of_removeAll_eq hsame, Text.not_infix_of_removeAll_eq hrest⟩

/-! ## Marks around a token -/

theorem removeAll_openMark_closeMark (cs : List Char) :
    Text.removeAll openMark (closeMark ++ cs) = closeMark ++ Text.removeAll openMark cs := by
  have hnone : Text.afterMark? openMark ('<' :: ("/var>".toList ++ cs)) = none := rfl
  have hrest : Text.removeAll openMark ("/var>".toList ++ cs) = "/var>".toList ++ Text.removeAll openMark cs :=
    Text.removeAll_append_of_not_mem (by decide) cs
  have hmark : closeMark = '<' :: "/var>".toList := rfl
  rw [hmark, List.cons_append, Text.removeAll]
  simp only [hnone, hrest, List.cons_append]

section Token

variable {r : Reference} (h : r.Readable) (before behind : List Char)
include h

theorem removeAll_text {mark : List Char} (hmark : '$' ∉ '<' :: mark) :
    Text.removeAll ('<' :: mark) (before ++ (r.text ++ behind)) =
      Text.removeAll ('<' :: mark) before ++ (r.text ++ Text.removeAll ('<' :: mark) behind) := by
  obtain ⟨tail, htail, -⟩ := h.text_eq
  have hangle : '<' ∉ tail := fun hmem => h.angle_not_mem_text (htail ▸ List.mem_cons_of_mem _ hmem)
  rw [htail, List.cons_append, Text.removeAll_append_cons hmark, Text.removeAll_append_of_not_mem hangle,
    List.cons_append]

theorem unhighlight_text :
    unhighlight (before ++ (r.text ++ behind)) = unhighlight before ++ (r.text ++ unhighlight behind) := by
  have hopen : Text.removeAll openMark (before ++ (r.text ++ behind)) =
      Text.removeAll openMark before ++ (r.text ++ Text.removeAll openMark behind) :=
    removeAll_text h before behind (by decide)
  rw [unhighlight, hopen]
  exact removeAll_text h _ _ (by decide)

/-- The marks around a token are taken out, whatever stands next to them. -/
theorem unhighlight_marked_text :
    unhighlight (before ++ (openMark ++ r.text ++ closeMark ++ behind)) =
      unhighlight before ++ (r.text ++ unhighlight behind) := by
  have hopen : ∀ cs, Text.removeAll openMark (before ++ (openMark ++ cs)) =
      Text.removeAll openMark before ++ Text.removeAll openMark cs :=
    Text.removeAll_append_mark (by decide) before
  have htext : ∀ cs, Text.removeAll openMark (r.text ++ cs) = r.text ++ Text.removeAll openMark cs :=
    Text.removeAll_append_of_not_mem h.angle_not_mem_text
  have hclose : ∀ cs ds, Text.removeAll closeMark (cs ++ (r.text ++ (closeMark ++ ds))) =
      Text.removeAll closeMark cs ++ (r.text ++ Text.removeAll closeMark (closeMark ++ ds)) :=
    fun cs ds => removeAll_text h cs (closeMark ++ ds) (by decide)
  have hmark : ∀ cs, Text.removeAll closeMark (closeMark ++ cs) = Text.removeAll closeMark cs :=
    Text.removeAll_mark_append _
  rw [List.append_assoc, List.append_assoc, unhighlight, hopen, htext, removeAll_openMark_closeMark, hclose, hmark]
  rfl

end Token

/-! ## A highlighted text -/

theorem unhighlight_marked {ps : List Piece} (hps : Whole ps) (before : List Char) :
    unhighlight (before ++ ps.flatMap markPiece) = unhighlight (before ++ spelled id ps) := by
  induction ps generalizing before with
  | nil => rfl
  | cons p ps ih =>
    cases p with
    | plain c =>
      -- A plain character joins what stands in front, where a mark may be open.
      have hrest := ih hps (before ++ [c])
      rwa [List.append_assoc, List.append_assoc] at hrest
    | token r =>
      obtain ⟨hr, hps⟩ := List.forall_mem_cons.1 hps
      have hrest := ih hps []
      rw [List.nil_append, List.nil_append] at hrest
      rw [List.flatMap_cons, markPiece, unhighlight_marked_text hr, hrest, Piece.spelled_token,
        id_eq, unhighlight_text hr]

/-- Taking out the marks of a highlighted text is taking marks out of the text twice. -/
theorem unhighlight_highlight (cs : List Char) : unhighlight (highlight cs) = unhighlight (unhighlight cs) := by
  have hmarked := unhighlight_marked (Piece.whole_pieces (unhighlight cs)) []
  rwa [Piece.spelled_pieces] at hmarked

/-- A front without angle brackets is made of plain pieces. -/
theorem eq_of_marked_eq_append {ps : List Piece} {front rest : List Char} (hfront : '<' ∉ front)
    (h : ps.flatMap markPiece = front ++ rest) : ∃ qs, ps = front.map .plain ++ qs := by
  induction front generalizing ps with
  | nil => exact ⟨ps, rfl⟩
  | cons c front ih =>
    rw [List.mem_cons, not_or] at hfront
    cases ps with
    | nil => cases h
    | cons p ps =>
      cases p with
      | token r =>
        obtain ⟨hc, -⟩ := List.cons.inj h
        exact absurd hc hfront.1
      | plain d =>
        obtain ⟨rfl, hrest⟩ := List.cons.inj h
        obtain ⟨qs, rfl⟩ := ih hfront.2 hrest
        exact ⟨qs, rfl⟩

/-- Marks around the tokens neither break one nor make one. -/
theorem references_marked (cs : List Char) : references ((pieces cs).flatMap markPiece) = tokens (pieces cs) := by
  fun_induction pieces cs with
  | case1 => exact references_eq_nil List.not_mem_nil
  | case2 c cs r rest hscan ih =>
    have hr := Reference.readable_of_scan? hscan
    have hplain : ∀ mark : List Char, (mark.map Piece.plain).filterMap Piece.reference? = [] :=
      Piece.tokens_map_plain
    have hopen : '$' ∉ openMark := by decide
    have hclose : '$' ∉ closeMark := by decide
    rw [List.flatMap_cons, markPiece, List.append_assoc, List.append_assoc, references,
      pieces_append_of_not_mem hopen, hr.pieces_text, pieces_append_of_not_mem hclose, List.filterMap_append,
      hplain, List.filterMap_cons, Piece.reference?, List.filterMap_append, hplain, Piece.tokens_token, ← ih]
    rfl
  | case3 c cs hscan ih =>
    have hnone : Reference.scan? (c :: (pieces cs).flatMap markPiece) = none := by
      refine Option.eq_none_iff_forall_ne_some.2 fun found hsome => ?_
      obtain ⟨x, rest⟩ := found
      have hx := Reference.readable_of_scan? hsome
      obtain ⟨tail, htail, -⟩ := hx.text_eq
      have htext := Reference.text_of_scan? hsome
      rw [htail] at htext
      obtain ⟨rfl, hmarked⟩ := List.cons.inj htext
      have hangle : '<' ∉ tail := fun hmem => hx.angle_not_mem_text (htail ▸ List.mem_cons_of_mem _ hmem)
      obtain ⟨qs, hqs⟩ := eq_of_marked_eq_append hangle hmarked
      have hcs := Piece.spelled_pieces cs
      rw [hqs, Piece.spelled_append, Piece.spelled_map_plain] at hcs
      have hagain := hx.scan?_text (spelled id qs)
      rw [htail, List.cons_append, hcs, hscan] at hagain
      cases hagain
    rw [List.flatMap_cons, markPiece, List.singleton_append, references, pieces_cons_of_none hnone,
      Piece.tokens_plain, ← ih]
    rfl

theorem length_marked (ps : List Piece) :
    (ps.flatMap markPiece).length = (spelled id ps).length + 11 * (tokens ps).length := by
  induction ps with
  | nil => rfl
  | cons p ps ih =>
    rw [List.flatMap_cons, List.length_append, ih]
    cases p with
    | plain c =>
      rw [Piece.spelled_plain, Piece.tokens_plain, List.length_cons, markPiece, List.length_singleton]
      omega
    | token r =>
      have hopen : openMark.length = 5 := rfl
      have hclose : closeMark.length = 6 := rfl
      rw [Piece.spelled_token, Piece.tokens_token, List.length_append, List.length_cons, markPiece,
        List.length_append, List.length_append, hopen, hclose, id_eq]
      omega

/-- A text that is highlighted twice is the text highlighted without the marks that were left
in it, which is the text highlighted once exactly if no mark was left. -/
theorem highlight_highlight_iff (cs : List Char) :
    highlight (highlight cs) = highlight (unhighlight cs) ∧
      (highlight (highlight cs) = highlight cs ↔ Unmarked (unhighlight cs)) := by
  have htwice : highlight (highlight cs) = highlight (unhighlight cs) := by
    rw [highlight, unhighlight_highlight]
    rfl
  refine ⟨htwice, ?_⟩
  rw [htwice, unmarked_iff]
  constructor
  · intro h
    -- Both texts have the same tokens, hence the same length without the marks around them.
    have hreferences := congrArg references h
    have hlength := congrArg List.length h
    rw [highlight, highlight, references_marked, references_marked] at hreferences
    rw [highlight, highlight, length_marked, length_marked, hreferences, Nat.add_right_cancel_iff,
      Piece.spelled_pieces, Piece.spelled_pieces] at hlength
    exact (unhighlight_sublist (unhighlight cs)).eq_of_length hlength
  · intro h
    rw [highlight, h]
    rfl

/-- A mark inside of another one leaves a mark behind. -/
example : highlight "<v<var>ar>".toList = "<var>".toList ∧ highlight "<var>".toList = [] := by decide +kernel

/-! ## Texts that are read without marks -/

/-- Highlighting is undone by taking the marks out, of texts without marks and of no others. -/
theorem unhighlight_highlight_eq_iff {cs : List Char} : unhighlight (highlight cs) = cs ↔ Unmarked cs := by
  rw [unhighlight_highlight, unmarked_iff]
  constructor
  · intro h
    -- Taking marks out twice gives back the whole text, so nothing was taken out at first.
    have htwice : (unhighlight (unhighlight cs)).Sublist (unhighlight cs) := unhighlight_sublist _
    rw [h] at htwice
    exact (unhighlight_sublist cs).antisymm htwice
  · intro h
    rw [h, h]

section Alike

variable {s t : String} (h : unhighlight s.toList = unhighlight t.toList)
include h

theorem findReferences_congr : findReferences s = findReferences t := by
  rw [findReferences, findReferences, h]

theorem resolveText_congr (vars : Vars) : vars.resolveText s = vars.resolveText t := by
  rw [Vars.resolveText, Vars.resolveText, h]

theorem resolveField_congr (vars : Vars) (style : FieldStyle) :
    vars.resolveField style s = vars.resolveField style t := by
  have htext := resolveText_congr h vars
  cases style with
  | array | incomingArray => rw [Vars.resolveField, Vars.resolveField, h]
  | bare | quoted | body | escaped => rw [Vars.resolveField, Vars.resolveField, htext]

end Alike

/-- The text that is shown for a value without marks is read as the value: it has the same
references, and it resolves alike against any values and in any style. -/
theorem marked_rich_unseen {raw : String} (h : Unmarked raw.toList) :
    unhighlight (FieldText.marked raw).rich.toList = raw.toList ∧
      findReferences (FieldText.marked raw).rich = findReferences raw ∧
      ∀ vars : Vars, vars.resolveText (FieldText.marked raw).rich = vars.resolveText raw ∧
        ∀ style, vars.resolveField style (FieldText.marked raw).rich = vars.resolveField style raw := by
  have hback : unhighlight (FieldText.marked raw).rich.toList = raw.toList := by
    show unhighlight (String.ofList (highlight raw.toList)).toList = raw.toList
    rw [String.toList_ofList]
    exact unhighlight_highlight_eq_iff.2 h
  have hsame : unhighlight (FieldText.marked raw).rich.toList = unhighlight raw.toList := by
    rw [hback, h.unhighlight]
  exact ⟨hback, findReferences_congr hsame, fun vars =>
    ⟨resolveText_congr hsame vars, fun style => resolveField_congr hsame vars style⟩⟩

/-- Parts of marks stand next to the tokens and between them. -/
def fringed : String := "<$(fetch)<$(fetch.page)/var>,<va"

theorem marked_rich_unseen_fringed :
    Unmarked fringed.toList ∧
      (FieldText.marked fringed).rich = "<<var>$(fetch)</var><<var>$(fetch.page)</var>/var>,<va" ∧
      unhighlight (FieldText.marked fringed).rich.toList = fringed.toList ∧
      findReferences (FieldText.marked fringed).rich = [⟨"fetch", []⟩, ⟨"fetch", ["page"]⟩] ∧
      Vars.resolveField (Dict.ofList [("fetch", .object [("page", .string "5")])]) .array
        (FieldText.marked fringed).rich =
          .array [.string "<\x7b\"page\":\"5\"\x7d<5/var>", .string "<va"] := by
  have hmarks : Unmarked fringed.toList := by decide +kernel
  obtain ⟨hback, hfound, hresolved⟩ := marked_rich_unseen hmarks
  refine ⟨hmarks, by decide +kernel, hback, ?_, ?_⟩
  · rw [hfound]
    decide +kernel
  · rw [(hresolved _).2 .array]
    decide +kernel

end Field
end JobPipeline
