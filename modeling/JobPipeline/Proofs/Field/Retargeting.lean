import JobPipeline.Proofs.Field.TokenLists
import JobPipeline.Proofs.Graph.Renaming

/-
The tokens of a field that follows a rename.

Some tokens of a written field are tokens of the field, others only come to be as it is
written: a name in a list becomes a token, and a body can close up to one.  The former
follow a rename of the task, the latter do not.  `Moved` keeps the two apart.
-/
namespace JobPipeline

open Piece (spelled tokens Whole Keeps)

/-! ## Texts with a character between them that no token has -/

theorem Reference.scan?_append_cons {c : Char} (hc : isTextChar c = false) (cs ds : List Char) :
    scan? (cs ++ c :: ds) = (scan? cs).map fun (r, rest) => (r, rest ++ c :: ds) := by
  cases hscan : scan? cs with
  | some result =>
    obtain ⟨r, rest⟩ := result
    rw [text_of_scan? hscan, List.append_assoc]
    exact (readable_of_scan? hscan).scan?_text _
  | none =>
    refine Option.eq_none_iff_forall_ne_some.2 fun ⟨r, rest⟩ hsome => ?_
    have hr := readable_of_scan? hsome
    have hnot : c ∉ r.text := fun hmem => by
      rw [hr.isTextChar c hmem] at hc
      cases hc
    rcases List.append_eq_append_iff.1 (text_of_scan? hsome) with ⟨more, htext, hmore⟩ | ⟨more, rfl, -⟩
    · cases more with
      | nil =>
        have hagain := hr.scan?_text []
        rw [htext, List.append_nil, List.append_nil, hscan] at hagain
        cases hagain
      | cons d more =>
        obtain ⟨rfl, -⟩ := List.cons.inj hmore
        exact hnot (htext ▸ List.mem_append_right _ List.mem_cons_self)
    · rw [hr.scan?_text] at hscan
      cases hscan

theorem pieces_append_cons {c : Char} (hc : Reference.isTextChar c = false) (cs ds : List Char) :
    pieces (cs ++ c :: ds) = pieces cs ++ .plain c :: pieces ds := by
  have hne : c ≠ '$' := fun heq => by
    rw [heq] at hc
    cases hc
  fun_induction pieces cs with
  | case1 => exact pieces_cons_of_ne hne ds
  | case2 d cs r rest hscan ih =>
    have hlong := Reference.scan?_append_cons hc (d :: cs) ds
    rw [hscan] at hlong
    rw [List.cons_append] at hlong ⊢
    rw [pieces_cons_of_some hlong, ih]
    rfl
  | case3 d cs hscan ih =>
    have hlong := Reference.scan?_append_cons hc (d :: cs) ds
    rw [hscan] at hlong
    rw [List.cons_append] at hlong ⊢
    rw [pieces_cons_of_none hlong, ih]
    rfl

namespace Text

theorem afterMark?_append_cons {mark : List Char} {c : Char} (hc : c ∉ mark) (cs ds : List Char) :
    afterMark? mark (cs ++ c :: ds) = (afterMark? mark cs).map (· ++ c :: ds) := by
  induction mark generalizing cs with
  | nil => rfl
  | cons m mark ih =>
    rw [List.mem_cons, not_or] at hc
    cases cs with
    | nil =>
      have hnone : afterMark? (m :: mark) (c :: ds) = none := if_neg (Ne.symm hc.1)
      exact hnone
    | cons d cs =>
      rw [List.cons_append, afterMark?, afterMark?, ih hc.2]
      split <;> rfl

/-- A mark that begins in front of a character which only its head can be ends there too. -/
theorem removeAll_append {m : Char} {mark : List Char} {c : Char} (hc : c ∉ mark) (cs ds : List Char) :
    removeAll (m :: mark) (cs ++ c :: ds) = removeAll (m :: mark) cs ++ removeAll (m :: mark) (c :: ds) := by
  have hlong : ∀ d cs, afterMark? (m :: mark) (d :: (cs ++ c :: ds)) =
      (afterMark? (m :: mark) (d :: cs)).map (· ++ c :: ds) := by
    intro d cs
    rw [afterMark?, afterMark?, afterMark?_append_cons hc]
    split <;> rfl
  fun_induction removeAll (m :: mark) cs with
  | case1 => rfl
  | case2 d cs rest hafter ih =>
    have hdrop : (cs ++ c :: ds).drop mark.length = cs.drop mark.length ++ c :: ds := by
      refine List.drop_append_of_le_length ?_
      have hlength := congrArg List.length (afterMark?_eq_some.1 hafter)
      simp only [List.length_cons, List.length_append] at hlength
      omega
    rw [List.cons_append, removeAll]
    simp only [hlong, hafter, Option.map_some, List.length_cons, Nat.add_sub_cancel, hdrop]
    simpa using ih
  | case3 d cs hafter ih =>
    rw [List.cons_append, removeAll]
    simp only [hlong, hafter, Option.map_none, ih, List.cons_append]

theorem removeAll_append_cons {m : Char} {mark : List Char} {c : Char} (hc : c ∉ m :: mark)
    (cs ds : List Char) :
    removeAll (m :: mark) (cs ++ c :: ds) = removeAll (m :: mark) cs ++ c :: removeAll (m :: mark) ds := by
  rw [List.mem_cons, not_or] at hc
  rw [removeAll_append hc.2, removeAll_cons_none (Ne.symm hc.1)]

end Text

namespace Field

theorem unhighlight_append_cons {c : Char} (hc : c ∉ openMark ∧ c ∉ closeMark) (cs ds : List Char) :
    unhighlight (cs ++ c :: ds) = unhighlight cs ++ c :: unhighlight ds := by
  have hopen : ∀ cs ds : List Char, Text.removeAll openMark (cs ++ c :: ds) =
      Text.removeAll openMark cs ++ c :: Text.removeAll openMark ds :=
    Text.removeAll_append_cons hc.1
  have hclose : ∀ cs ds : List Char, Text.removeAll closeMark (cs ++ c :: ds) =
      Text.removeAll closeMark cs ++ c :: Text.removeAll closeMark ds :=
    Text.removeAll_append_cons hc.2
  rw [unhighlight, hopen, hclose]
  rfl

/-! ## Names of tokens -/

/-- The names that the tokens of a text give. -/
def tokenNames (cs : List Char) : List String := (references (unhighlight cs)).map Reference.id

theorem tokenNames_append_cons {c : Char} (hmarks : c ∉ openMark ∧ c ∉ closeMark)
    (htext : Reference.isTextChar c = false) (cs ds : List Char) :
    tokenNames (cs ++ c :: ds) = tokenNames cs ++ tokenNames ds := by
  rw [tokenNames, unhighlight_append_cons hmarks, references, pieces_append_cons htext,
    List.filterMap_append, List.map_append]
  rfl

theorem tokenNames_eq_nil {cs : List Char} (h : '$' ∉ cs) : tokenNames cs = [] := by
  rw [tokenNames, references_eq_nil fun hmem => h ((unhighlight_sublist cs).subset hmem)]
  rfl

theorem tokenNames_cons {c : Char} (hmarks : c ∉ openMark ∧ c ∉ closeMark)
    (htext : Reference.isTextChar c = false) (cs : List Char) : tokenNames (c :: cs) = tokenNames cs := by
  have happend := tokenNames_append_cons hmarks htext [] cs
  rwa [List.nil_append, tokenNames_eq_nil List.not_mem_nil, List.nil_append] at happend

theorem tokenNames_token {name : List Char} (h : Identifier.isWord name = true) :
    tokenNames (token name) = [String.ofList name] := by
  have hread := (Reference.readable_of_isWord h).pieces_text []
  rw [← token_eq_text, List.append_nil, pieces] at hread
  rw [tokenNames, (unmarked_of_not_mem (angle_not_mem_token h)).unhighlight, references, hread]
  rfl

/-- A written list has the tokens of its items. -/
theorem tokenNames_renderArray (items : List (List Char)) :
    tokenNames (renderArray items) = items.flatMap tokenNames := by
  have hjoined : tokenNames (Text.joinWith [',', ' '] items) = items.flatMap tokenNames := by
    induction items with
    | nil => exact tokenNames_eq_nil List.not_mem_nil
    | cons i items ih =>
      cases items with
      | nil => simp [Text.joinWith]
      | cons j items =>
        rw [Text.joinWith, List.append_assoc, List.cons_append, List.cons_append, List.nil_append,
          tokenNames_append_cons (by decide) (by decide), tokenNames_cons (by decide) (by decide), ih]
        rfl
  rw [renderArray]
  split
  · next hnil =>
    rw [hnil]
    exact tokenNames_eq_nil (by decide)
  · rw [List.append_assoc, List.cons_append, List.cons_append, List.nil_append,
      tokenNames_cons (by decide) (by decide), tokenNames_cons (by decide) (by decide),
      tokenNames_append_cons (by decide) (by decide), hjoined]
    have hend : tokenNames [']'] = [] := tokenNames_eq_nil (by decide)
    rw [hend, List.append_nil]

end Field

/-! ## Following a rename -/

/-- A token after a rename. -/
def Reference.retargeted (old new : String) (r : Reference) : Reference :=
  if r.id = old then { r with id := new } else r

namespace Reference

variable {old new : String}

theorem retargeted_id (r : Reference) : (r.retargeted old new).id = followName old new r.id := by
  rw [retargeted, followName]
  split <;> rfl

theorem keeps_retargeted (old : String) (hnew : Identifier.isWord new.toList = true) :
    Keeps (retargeted old new) := by
  intro r hr
  rw [retargeted]
  split
  · exact ⟨hnew, hr.path⟩
  · exact hr

end Reference

/-- The names that the tokens of a field give (`own`), and those that its text gives once
it is written, before and after a rename. -/
inductive Moved (old new : String) : (own found found' : List String) → Prop
  | nil : Moved old new [] [] []
  /-- A token of the field follows. -/
  | own {own found found' : List String} (name : String) : Moved old new own found found' →
      Moved old new (name :: own) (name :: found) (followName old new name :: found')
  /-- A token that is formed as the field is written stays. -/
  | formed {own found found' : List String} (name : String) : Moved old new own found found' →
      Moved old new own (name :: found) (name :: found')
  /-- The old name in a list is the name of a task no longer. -/
  | lost {own found found' : List String} : Moved old new own found found' →
      Moved old new own (old :: found) found'
  /-- The task stands in for an empty list. -/
  | fed {own found found' : List String} : Moved old new own found found' →
      Moved old new own (old :: found) (new :: found')

namespace Moved

variable {old new : String} {own own₁ own₂ found found₁ found₂ found' found₁' found₂' : List String}

theorem append (h : Moved old new own₁ found₁ found₁') (h' : Moved old new own₂ found₂ found₂') :
    Moved old new (own₁ ++ own₂) (found₁ ++ found₂) (found₁' ++ found₂') := by
  induction h with
  | nil => exact h'
  | own name _ ih => exact .own name ih
  | formed name _ ih => exact .formed name ih
  | lost _ ih => exact .lost ih
  | fed _ ih => exact .fed ih

theorem of_formed (names : List String) : Moved old new [] names names := by
  induction names with
  | nil => exact .nil
  | cons name names ih => exact .formed name ih

/-- Apart from the two names nothing changes. -/
theorem filter_eq (h : Moved old new own found found') {keep : String → Bool} (hold : keep old = false)
    (hnew : keep new = false) : found'.filter keep = found.filter keep := by
  induction h with
  | nil => rfl
  | own name _ ih =>
    rw [List.filter_cons, List.filter_cons, ih]
    by_cases hname : name = old
    · rw [followName, if_pos hname, hnew, hname, hold]
      rfl
    · rw [followName, if_neg hname]
  | formed name _ ih => rw [List.filter_cons, List.filter_cons, ih]
  | lost _ ih => rw [List.filter_cons, hold, ih]; rfl
  | fed _ ih => rw [List.filter_cons, List.filter_cons, hold, hnew, ih]; rfl

theorem count_le (h : Moved old new own found found') (name : String) :
    own.count name ≤ found.count name := by
  induction h with
  | nil => exact Nat.le_refl _
  | own other _ ih =>
    rw [List.count_cons, List.count_cons]
    omega
  | formed other _ ih | lost _ ih | fed _ ih =>
    rw [List.count_cons]
    omega

/-- Where no token of the old name is formed, all names follow. -/
theorem eq_map (h : Moved old new own found found') (hcount : found.count old = own.count old) :
    found' = found.map (followName old new) := by
  induction h with
  | nil => rfl
  | own name _ ih =>
    rw [List.count_cons, List.count_cons, Nat.add_right_cancel_iff] at hcount
    rw [List.map_cons, ih hcount]
  | formed name hrest ih =>
    have hle := hrest.count_le old
    rw [List.count_cons] at hcount
    by_cases hname : name = old
    · rw [hname] at hcount
      simp at hcount
      omega
    · have hfollow : followName old new name = name := if_neg hname
      simp only [beq_iff_eq, if_neg hname, Nat.add_zero] at hcount
      rw [List.map_cons, hfollow, ih hcount]
  | lost hrest | fed hrest =>
    have hle := hrest.count_le old
    rw [List.count_cons_self] at hcount
    omega

/-- Each token that is found is one of the field or is formed. -/
theorem of_found (old new : String) (found : List (Bool × Reference)) :
    Moved old new (((found.filter Prod.fst).map Prod.snd).map Reference.id)
      (found.map fun e => e.2.id)
      (found.map fun e => (if e.1 then e.2.retargeted old new else e.2).id) := by
  induction found with
  | nil => exact .nil
  | cons e found ih =>
    obtain ⟨isOwn, r⟩ := e
    cases isOwn with
    | true =>
      have hown := ih.own r.id
      rw [← Reference.retargeted_id] at hown
      exact hown
    | false => exact ih.formed r.id

theorem of_pieces (old : String) (hnew : Identifier.isWord new.toList = true) {ps : List Piece} (hps : Whole ps) :
    Moved old new ((tokens ps).map Reference.id) (Field.tokenNames (spelled id ps))
      (Field.tokenNames (spelled (Reference.retargeted old new) ps)) := by
  have hkeeps := Reference.keeps_retargeted old hnew
  obtain ⟨qs, htokens, hmarks⟩ := Piece.tokenWise_unhighlight ps hps
  have hqs : Whole qs := hps.of_subset fun r hr => htokens ▸ hr
  obtain ⟨found, hfound, hall⟩ := Piece.exists_references hqs
  have hmoved := of_found old new found
  have hsame : (found.map fun e => if e.1 then id e.2 else e.2).map Reference.id =
      found.map fun e => e.2.id := by
    rw [List.map_map]
    exact List.map_congr_left fun e _ => by simp
  have hfollow : (found.map fun e => if e.1 then e.2.retargeted old new else e.2).map Reference.id =
      found.map fun e => (if e.1 then e.2.retargeted old new else e.2).id := List.map_map
  rw [Field.tokenNames, Field.tokenNames, hmarks id Piece.keeps_id, hmarks _ hkeeps,
    hall id Piece.keeps_id, hall _ hkeeps, hsame, hfollow, ← htokens, ← hfound]
  exact hmoved

/-- A step that leaves tokens whole. -/
theorem of_tokenWise (old : String) {op : List Char → List Char} (hop : Piece.TokenWise op)
    (hnew : Identifier.isWord new.toList = true) {ps : List Piece} (hps : Whole ps) :
    Moved old new ((tokens ps).map Reference.id) (Field.tokenNames (op (spelled id ps)))
      (Field.tokenNames (op (spelled (Reference.retargeted old new) ps))) := by
  obtain ⟨qs, htokens, hspelled⟩ := hop ps hps
  rw [hspelled id Piece.keeps_id, hspelled _ (Reference.keeps_retargeted old hnew), ← htokens]
  exact of_pieces old hnew (hps.of_subset fun r hr => htokens ▸ hr)

end Moved

namespace Field

theorem renameReferences_eq (old new s : String) :
    (renameReferences old new s).toList = spelled (Reference.retargeted old new) (pieces s.toList) := by
  rw [renameReferences, String.toList_ofList, spelled]
  congr 1
  funext p
  cases p with
  | plain c => rfl
  | token r =>
    show renamePiece old new (.token r) = (r.retargeted old new).text
    rw [renamePiece, Reference.retargeted]
    split <;> rfl

theorem renameReferences_empty (old new : String) : renameReferences old new "" = "" := by
  rw [← String.toList_inj, renameReferences_eq]
  have hnil : pieces ("" : String).toList = [] := by
    show pieces [] = []
    rw [pieces]
  rw [hnil]
  rfl

/-- A name that no part of a text is, no token of the text gives. -/
theorem not_mem_references {cs : List Char} {name : String} (h : ¬name.toList <:+: cs) :
    name ∉ (references cs).map Reference.id := by
  intro hmem
  obtain ⟨r, hr, rfl⟩ := List.mem_map.1 hmem
  refine h ?_
  obtain ⟨p, hp, hpr⟩ := List.mem_filterMap.1 hr
  cases p with
  | plain c => cases hpr
  | token x =>
    obtain rfl := Option.some.inj hpr
    obtain ⟨front, back, hsplit⟩ := List.append_of_mem hp
    have htext := flatMap_text_pieces cs
    rw [hsplit, List.flatMap_append, List.flatMap_cons] at htext
    have hid : x.id.toList <:+: x.text := by
      have hbody : x.id.toList <+: x.body := by
        rw [Reference.body, Text.joinWith_cons]
        exact List.prefix_append _ _
      refine hbody.isInfix.trans ⟨['$', '('], [')'], ?_⟩
      simp [Reference.text]
    rw [← htext]
    exact hid.trans (List.infix_append' ..)

end Field
end JobPipeline
