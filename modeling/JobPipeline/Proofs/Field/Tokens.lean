import JobPipeline.Field.Token
import JobPipeline.Proofs.Field.Lists
import JobPipeline.Proofs.Source.Lexemes
import JobPipeline.Proofs.Text.Joining
import Mathlib.Data.List.Infix

/-
The tokens of a text, and the marks that may stand around them.

A token that was read is `Readable`: its name is a word and so is every part of its
path, apart from its first character.  Such a token is read again wherever its text
stands, whatever follows.
-/
namespace JobPipeline

/-- Digits, letters and the underscore, by their code points. -/
theorem Identifier.range_of_isRest {c : Char} (h : isRest c = true) :
    (48 ≤ c.toNat ∧ c.toNat ≤ 57) ∨ (65 ≤ c.toNat ∧ c.toNat ≤ 90) ∨
      (97 ≤ c.toNat ∧ c.toNat ≤ 122) ∨ c.toNat = 95 := by
  delta isRest Char.isAlphanum Char.isAlpha Char.isUpper Char.isLower at h
  simp only [Char.isDigit, Bool.or_eq_true, Bool.and_eq_true, decide_eq_true_eq, beq_iff_eq,
    ge_iff_le, UInt32.le_iff_toNat_le] at h
  rcases h with ((h | h) | h) | rfl
  · exact .inr (.inl h)
  · exact .inr (.inr (.inl h))
  · exact .inl h
  · exact .inr (.inr (.inr rfl))

namespace Text

theorem isBlank_of_isRest {c : Char} (h : Identifier.isRest c = true) : isBlank c = false := by
  have hrange := Identifier.range_of_isRest h
  rw [Bool.eq_false_iff]
  intro hblank
  simp only [isBlank, Bool.or_eq_true, Bool.and_eq_true, decide_eq_true_eq, beq_iff_eq] at hblank
  omega

theorem removeAll_sublist (mark cs : List Char) : (removeAll mark cs).Sublist cs := by
  fun_induction removeAll mark cs with
  | case1 => exact List.Sublist.refl _
  | case2 c cs _ _ ih => exact (ih.trans (List.drop_sublist _ _)).cons c
  | case3 c cs _ ih => exact ih.cons_cons c

theorem removeAll_eq_self {mark cs : List Char} (h : ¬mark <:+: cs) : removeAll mark cs = cs := by
  induction cs with
  | nil => rw [removeAll]
  | cons c cs ih =>
    rw [List.infix_cons_iff, not_or] at h
    rw [removeAll]
    split
    · next hafter => exact absurd ⟨_, (afterMark?_eq_some.1 hafter).symm⟩ h.1
    · rw [ih h.2]

theorem removeAll_cons_none {m c : Char} {mark cs : List Char} (h : m ≠ c) :
    removeAll (m :: mark) (c :: cs) = c :: removeAll (m :: mark) cs := by
  rw [removeAll, afterMark?, if_neg h]

theorem removeAll_append_of_not_mem {m : Char} {mark cs : List Char} (h : m ∉ cs) (rest : List Char) :
    removeAll (m :: mark) (cs ++ rest) = cs ++ removeAll (m :: mark) rest := by
  induction cs with
  | nil => rfl
  | cons c cs ih =>
    rw [List.mem_cons, not_or] at h
    rw [List.cons_append, removeAll_cons_none h.1, ih h.2, List.cons_append]

theorem removeAll_mark_append {m : Char} (mark rest : List Char) :
    removeAll (m :: mark) (m :: (mark ++ rest)) = removeAll (m :: mark) rest := by
  have hafter : afterMark? (m :: mark) (m :: (mark ++ rest)) = some rest :=
    afterMark?_eq_some.2 rfl
  rw [removeAll]
  simp only [hafter, List.length_cons, Nat.add_sub_cancel, List.drop_left]

/-- A mark lies on one side of a character that it does not have. -/
theorem infix_append_cons {mark : List Char} {c : Char} (hc : c ∉ mark) {cs ds : List Char}
    (h : mark <:+: cs ++ c :: ds) : mark <:+: cs ∨ mark <:+: ds := by
  induction cs with
  | nil =>
    rcases List.infix_cons_iff.1 h with hhead | hrest
    · cases mark with
      | nil => exact Or.inl <| List.nil_infix
      | cons m mark =>
        obtain ⟨rfl, -⟩ := List.cons_prefix_cons.1 hhead
        exact absurd List.mem_cons_self hc
    · exact .inr hrest
  | cons d cs ih =>
    rw [List.cons_append] at h
    rcases List.infix_cons_iff.1 h with hhead | hrest
    · have hfront : d :: cs <+: d :: (cs ++ c :: ds) := List.prefix_append (d :: cs) (c :: ds)
      rcases List.prefix_or_prefix_of_prefix hhead hfront with hleft | ⟨more, rfl⟩
      · exact .inl hleft.isInfix
      · cases more with
        | nil =>
          rw [List.append_nil]
          exact .inl (List.infix_refl _)
        | cons m more =>
          obtain ⟨rfl, -⟩ := List.cons_prefix_cons.1 ((List.prefix_append_right_inj (d :: cs)).1 hhead)
          exact absurd (List.mem_append_right _ List.mem_cons_self) hc
    · exact (ih hrest).imp_left fun hleft => hleft.trans (List.suffix_cons d cs).isInfix

end Text

namespace Reference

theorem scan?_eq_none {c : Char} (hc : c ≠ '$') (cs : List Char) : scan? (c :: cs) = none := by
  rw [scan?.eq_def]
  split
  · next h => exact absurd (List.cons.inj h).1 hc
  · rfl

structure Readable (r : Reference) : Prop where
  id : Identifier.isWord r.id.toList = true
  path : ∀ part ∈ r.path, part ≠ "" ∧ ∀ c ∈ part.toList, Identifier.isRest c = true

theorem isBodyChar_iff (c : Char) : isBodyChar c = true ↔ Identifier.isRest c = true ∨ c = '.' := by
  simp [isBodyChar, Identifier.isRest]

variable {r : Reference}

theorem Readable.isRest (h : r.Readable) :
    ∀ part ∈ r.id.toList :: r.path.map String.toList, ∀ c ∈ part, Identifier.isRest c = true := by
  refine List.forall_mem_cons.2 ⟨Field.isRest_of_isWord h.id, ?_⟩
  intro _ hmem
  obtain ⟨part, hpart, rfl⟩ := List.mem_map.1 hmem
  exact (h.path part hpart).2

theorem Readable.isBodyChar (h : r.Readable) : ∀ c ∈ r.body, isBodyChar c = true := by
  intro c hc
  rw [isBodyChar_iff]
  rcases Text.mem_joinWith hc with hc | ⟨part, hpart, hc⟩
  · exact .inr (List.mem_singleton.1 hc)
  · exact .inl (h.isRest part hpart c hc)

theorem Readable.ofBody?_body (h : r.Readable) : ofBody? r.body = some r := by
  have hparts : ∀ part ∈ r.id.toList :: r.path.map String.toList, '.' ∉ part :=
    fun part hpart hc => absurd (h.isRest part hpart _ hc) (by decide)
  have hstart : (r.id.toList.head?.any isStartChar) = true := by
    have hid := h.id
    cases hlist : r.id.toList with
    | nil =>
      rw [hlist] at hid
      cases hid
    | cons c cs =>
      rw [hlist, Identifier.isWord, Bool.and_eq_true] at hid
      exact hid.1
  have hpath : (r.path.map String.toList).all (· ≠ []) = true := by
    rw [List.all_eq_true]
    intro _ hmem
    obtain ⟨part, hpart, rfl⟩ := List.mem_map.1 hmem
    simpa using (h.path part hpart).1
  have hsame : (r.path.map String.toList).map String.ofList = r.path := by simp [Function.comp_def]
  rw [ofBody?, body, Text.splitOn_joinWith (List.cons_ne_nil _ _) hparts]
  simp only [hstart, hpath, and_self, if_true, hsame, String.ofList_toList]

/-- A body goes as far as the parenthesis that closes it. -/
theorem Readable.takeWhile_body (h : r.Readable) (rest : List Char) :
    (r.body ++ ')' :: rest).takeWhile Reference.isBodyChar = r.body ∧
      (r.body ++ ')' :: rest).dropWhile Reference.isBodyChar = ')' :: rest := by
  have hend : Source.Apart Reference.isBodyChar (')' :: rest) := fun c hc => by
    cases hc
    decide
  exact Source.takeWhile_append_of_all (List.all_eq_true.2 h.isBodyChar) hend

theorem text_append (r : Reference) (rest : List Char) :
    r.text ++ rest = '$' :: '(' :: (r.body ++ ')' :: rest) := by simp [text]

/-- A token is read again wherever its text stands. -/
theorem Readable.scan?_text (h : r.Readable) (rest : List Char) :
    scan? (r.text ++ rest) = some (r, rest) := by
  obtain ⟨htake, hdrop⟩ := h.takeWhile_body rest
  rw [text_append, scan?, hdrop]
  simp only [htake, h.ofBody?_body, Option.map_some]

theorem readable_of_ofBody? {cs : List Char} (hcs : ∀ c ∈ cs, Reference.isBodyChar c = true)
    (h : ofBody? cs = some r) : r.Readable := by
  rw [ofBody?] at h
  split at h
  · next id path heq =>
    split at h
    · next hparts =>
      cases h
      have hrest : ∀ part ∈ id :: path, ∀ c ∈ part, Identifier.isRest c = true := by
        intro part hpart c hc
        rw [← heq] at hpart
        obtain ⟨hne, hmem⟩ := Text.mem_of_mem_splitOn hpart c hc
        exact ((isBodyChar_iff c).1 (hcs c hmem)).resolve_right hne
      obtain ⟨hid, hpath⟩ := List.forall_mem_cons.1 hrest
      refine ⟨?_, ?_⟩
      · rw [String.toList_ofList]
        cases id with
        | nil => simp at hparts
        | cons c cs =>
          rw [Identifier.isWord, Bool.and_eq_true, List.all_eq_true]
          exact ⟨hparts.1, fun d hd => hid d (List.mem_cons_of_mem c hd)⟩
      · intro _ hmem
        obtain ⟨part, hpart, rfl⟩ := List.mem_map.1 hmem
        have hne : part ≠ [] := by simpa using List.all_eq_true.1 hparts.2 part hpart
        rw [String.toList_ofList]
        exact ⟨by simpa using hne, hpath part hpart⟩
    · cases h
  · cases h

/-- A token that was read is one that can be read. -/
theorem readable_of_scan? {cs rest : List Char} (h : scan? cs = some (r, rest)) : r.Readable := by
  rw [scan?.eq_def] at h
  split at h
  · split at h
    · obtain ⟨r', hr, hpair⟩ := Option.map_eq_some_iff.1 h
      cases hpair
      exact readable_of_ofBody? (List.all_eq_true.1 List.all_takeWhile) hr
    · cases h
  · cases h

/-- Behind its dollar sign a token has no other. -/
theorem Readable.text_eq (h : r.Readable) : ∃ tail, r.text = '$' :: tail ∧ '$' ∉ tail := by
  refine ⟨'(' :: (r.body ++ [')']), rfl, ?_⟩
  rw [List.mem_cons, List.mem_append, not_or, not_or]
  exact ⟨by decide, fun hmem => absurd (h.isBodyChar _ hmem) (by decide), by decide⟩

theorem Readable.angle_not_mem_text (h : r.Readable) : '<' ∉ r.text := by
  intro hmem
  simp only [text, List.mem_cons, List.mem_append, List.not_mem_nil, or_false] at hmem
  rcases hmem with (hc | hc | hc) | hc
  · exact absurd hc (by decide)
  · exact absurd hc (by decide)
  · exact absurd (h.isBodyChar _ hc) (by decide)
  · exact absurd hc (by decide)

theorem readable_of_isWord {name : List Char} (h : Identifier.isWord name = true) :
    (⟨String.ofList name, []⟩ : Reference).Readable where
  id := by rwa [String.toList_ofList]
  path part hpart := absurd hpart List.not_mem_nil

end Reference

/-! ## Pieces -/

theorem pieces_cons_of_none {c : Char} {cs : List Char} (h : Reference.scan? (c :: cs) = none) :
    pieces (c :: cs) = .plain c :: pieces cs := by
  rw [pieces]
  split
  · next hsome =>
    rw [h] at hsome
    cases hsome
  · rfl

theorem pieces_cons_of_ne {c : Char} (hc : c ≠ '$') (cs : List Char) :
    pieces (c :: cs) = .plain c :: pieces cs := pieces_cons_of_none (Reference.scan?_eq_none hc cs)

theorem pieces_cons_of_some {c : Char} {cs rest : List Char} {r : Reference}
    (h : Reference.scan? (c :: cs) = some (r, rest)) : pieces (c :: cs) = .token r :: pieces rest := by
  rw [pieces]
  split
  · next hsome =>
    rw [h] at hsome
    cases hsome
    rfl
  · next hnone =>
    rw [h] at hnone
    cases hnone

theorem Reference.Readable.pieces_text {r : Reference} (h : r.Readable) (rest : List Char) :
    pieces (r.text ++ rest) = .token r :: pieces rest := pieces_cons_of_some (h.scan?_text rest)

theorem pieces_append_of_not_mem {cs : List Char} (h : '$' ∉ cs) (rest : List Char) :
    pieces (cs ++ rest) = cs.map .plain ++ pieces rest := by
  induction cs with
  | nil => rfl
  | cons c cs ih =>
    rw [List.mem_cons, not_or] at h
    rw [List.cons_append, pieces_cons_of_ne (Ne.symm h.1), ih h.2, List.map_cons, List.cons_append]

theorem pieces_of_not_mem {cs : List Char} (h : '$' ∉ cs) : pieces cs = cs.map .plain := by
  have happend := pieces_append_of_not_mem h []
  have hnil : pieces [] = [] := by rw [pieces]
  rwa [List.append_nil, hnil, List.append_nil] at happend

namespace Field

/-! ## Marks -/

/-- A text without marks. -/
structure Unmarked (cs : List Char) : Prop where
  opening : ¬openMark <:+: cs
  closing : ¬closeMark <:+: cs

instance (cs : List Char) : Decidable (Unmarked cs) :=
  decidable_of_iff (¬openMark <:+: cs ∧ ¬closeMark <:+: cs)
    ⟨fun h => ⟨h.1, h.2⟩, fun h => ⟨h.opening, h.closing⟩⟩

theorem unhighlight_sublist (cs : List Char) : (unhighlight cs).Sublist cs :=
  (Text.removeAll_sublist _ _).trans (Text.removeAll_sublist _ _)

theorem Unmarked.unhighlight {cs : List Char} (h : Unmarked cs) : unhighlight cs = cs := by
  rw [Field.unhighlight, Text.removeAll_eq_self h.opening, Text.removeAll_eq_self h.closing]

theorem unmarked_of_not_mem {cs : List Char} (h : '<' ∉ cs) : Unmarked cs where
  opening hmark := h (hmark.subset (by decide))
  closing hmark := h (hmark.subset (by decide))

theorem Unmarked.of_subtext {cs ds : List Char} (h : Unmarked cs) (hds : ds <:+: cs) : Unmarked ds where
  opening hmark := h.opening (hmark.trans hds)
  closing hmark := h.closing (hmark.trans hds)

/-- No mark begins on one side of a character that marks do not have and ends on the
other. -/
theorem Unmarked.append_cons {c : Char} (hc : c ∉ openMark ∧ c ∉ closeMark) {cs ds : List Char}
    (hcs : Unmarked cs) (hds : Unmarked ds) : Unmarked (cs ++ c :: ds) where
  opening hmark := (Text.infix_append_cons hc.1 hmark).elim hcs.opening hds.opening
  closing hmark := (Text.infix_append_cons hc.2 hmark).elim hcs.closing hds.closing

theorem token_eq_text (name : List Char) : token name = (⟨String.ofList name, []⟩ : Reference).text := by
  simp [token, Reference.text, Reference.body, Text.joinWith]

theorem angle_not_mem_token {name : List Char} (h : Identifier.isWord name = true) :
    '<' ∉ token name := by
  rw [token_eq_text]
  exact (Reference.readable_of_isWord h).angle_not_mem_text

theorem unmarked_joinWith_tokens {names : List (List Char)}
    (h : ∀ name ∈ names, Identifier.isWord name = true) :
    Unmarked (Text.joinWith [','] (names.map token)) := by
  refine unmarked_of_not_mem fun hmem => ?_
  rcases Text.mem_joinWith hmem with hc | ⟨part, hpart, hc⟩
  · exact absurd hc (by decide)
  · obtain ⟨name, hname, rfl⟩ := List.mem_map.1 hpart
    exact angle_not_mem_token (h name hname) hc

theorem unmarked_nil : Unmarked [] := unmarked_of_not_mem List.not_mem_nil

/-- No mark lies across a comma or a blank, so a written list has the marks of its
items. -/
theorem unmarked_renderArray {items : List (List Char)} (h : ∀ i ∈ items, Unmarked i) :
    Unmarked (renderArray items) := by
  have hjoined : Unmarked (Text.joinWith [',', ' '] items) := by
    induction items with
    | nil => exact unmarked_nil
    | cons i items ih =>
      obtain ⟨hi, hitems⟩ := List.forall_mem_cons.1 h
      cases items with
      | nil => exact hi
      | cons j items =>
        have hrest := unmarked_nil.append_cons (c := ' ') (by decide) (ih hitems)
        rw [Text.joinWith, List.append_assoc]
        exact hi.append_cons (c := ',') (by decide) hrest
  rw [renderArray]
  split
  · exact unmarked_of_not_mem (by decide)
  · have hend := unmarked_nil.append_cons (c := ']') (by decide) unmarked_nil
    have hright := hjoined.append_cons (c := ' ') (by decide) hend
    have hinner := unmarked_nil.append_cons (c := ' ') (by decide) hright
    have hlist := unmarked_nil.append_cons (c := '[') (by decide) hinner
    rw [List.append_assoc]
    exact hlist

/-- Every token begins with a dollar sign. -/
theorem references_eq_nil {cs : List Char} (h : '$' ∉ cs) : references cs = [] := by
  rw [references, pieces_of_not_mem h, List.filterMap_map]
  exact List.filterMap_eq_nil_iff.2 fun _ _ => rfl

theorem findReferences_eq_nil {s : String} (h : '$' ∉ s.toList) : findReferences s = [] :=
  references_eq_nil fun hmem => h ((unhighlight_sublist _).subset hmem)

end Field
end JobPipeline
