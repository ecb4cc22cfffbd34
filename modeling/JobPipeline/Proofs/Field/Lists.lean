import JobPipeline.Proofs.Field.Items
import JobPipeline.Proofs.Matching
import JobPipeline.Proofs.Text.Joining
import JobPipeline.Document

/-
Array fields as they are written.

The items of an array are `Tidy`: separate texts without blanks around them, none
of them empty.  Tidy items are what reading a written list gives, so an array that
has been written once is written the same way ever after.  Names that become
tokens stay tidy, and neither change touches an angle bracket.
-/
namespace JobPipeline
namespace Field

open Text (isBlank trim Trimmed)

structure Tidy (items : List (List Char)) : Prop where
  separate : Separate items
  trimmed : ∀ i ∈ items, Trimmed i
  nonempty : ∀ i ∈ items, i ≠ []

theorem changed_trim (items : List (List Char)) :
    Changed items ((items.map trim).filter (· ≠ [])) := by
  induction items with
  | nil => exact .nil
  | cons i items ih =>
    rw [List.map_cons]
    by_cases hnil : trim i = []
    · rw [List.filter_cons_of_neg (by simpa using hnil)]
      exact .drop (hnil ▸ similar_trim i) ih
    · rw [List.filter_cons_of_pos (by simpa using hnil)]
      exact .keep (similar_trim i) ih

theorem tidy_nil : Tidy [] where
  separate := ⟨trivial, .nil⟩
  trimmed _ h := absurd h List.not_mem_nil
  nonempty _ h := absurd h List.not_mem_nil

theorem tidy_arrayItems (cs : List Char) : Tidy (arrayItems cs) := by
  rw [arrayItems]
  split
  · exact tidy_nil
  · refine ⟨(separate_splitTopLevel _).changed (changed_trim _), fun i hi => ?_, fun i hi => ?_⟩
    · obtain ⟨part, _, rfl⟩ := List.mem_map.1 (List.mem_filter.1 hi).1
      exact Text.trimmed_trim part
    · simpa using (List.mem_filter.1 hi).2

/-- A text without a bracket that opens it. -/
def withoutOpening (cs : List Char) : List Char := if cs.head? = some '[' then cs.tail else cs

/-- A text without a bracket that closes it. -/
def withoutClosing (cs : List Char) : List Char := if cs.getLast? = some ']' then cs.dropLast else cs

theorem stripBrackets_eq (cs : List Char) :
    stripBrackets cs = withoutClosing (withoutOpening cs) := by
  cases cs with
  | nil => rfl
  | cons c cs =>
    by_cases hopen : c = '['
    · subst hopen
      rfl
    · have hhead : (c :: cs).head? ≠ some '[' := fun h => hopen (Option.some.inj h)
      rw [withoutOpening, if_neg hhead, stripBrackets, withoutClosing]
      exact fun _ heq => absurd (List.cons.inj heq).1 hopen

theorem infix_of_stripBrackets (cs : List Char) : stripBrackets cs <:+: cs := by
  have hopening : withoutOpening cs <:+: cs := by
    rw [withoutOpening]
    split
    · exact (List.tail_suffix cs).isInfix
    · exact List.infix_refl cs
  rw [stripBrackets_eq, withoutClosing]
  split
  · exact List.IsInfix.trans (List.IsPrefix.isInfix <| List.dropLast_prefix _) hopening
  · exact hopening

/-- An item is a part of the text it was read from. -/
theorem infix_of_mem_arrayItems {cs item : List Char} (h : item ∈ arrayItems cs) : item <:+: cs := by
  rw [arrayItems] at h
  split at h
  · cases h
  · obtain ⟨part, hpart, rfl⟩ := List.mem_map.1 (List.mem_filter.1 h).1
    have hjoined : part <:+: Text.joinWith [','] (splitTopLevel (stripBrackets (trim cs))) :=
      Text.infix_joinWith hpart
    rw [joinWith_splitTopLevel] at hjoined
    exact (Text.infix_of_trim part).trans (hjoined.trans
      ((infix_of_stripBrackets _).trans (Text.infix_of_trim cs)))

theorem arrayItems_of_blank {cs : List Char} (h : cs.all isBlank = true) : arrayItems cs = [] := by
  rw [arrayItems, (Text.trim_eq_nil_iff cs).2 h]
  rfl

/-! ## Written lists are read back -/

/-- Items with the blanks that a written list puts around them. -/
def spaced : List (List Char) → List (List Char)
  | [] => []
  | [i] => [' ' :: (i ++ [' '])]
  | i :: j :: rest => (' ' :: i) :: spaced (j :: rest)

theorem joinWith_spaced {items : List (List Char)} (hne : items ≠ []) :
    Text.joinWith [','] (spaced items) = ' ' :: (Text.joinWith [',', ' '] items ++ [' ']) := by
  induction items with
  | nil => exact absurd rfl hne
  | cons i items ih =>
    cases items with
    | nil => rfl
    | cons j items =>
      have hrest := ih (List.cons_ne_nil j items)
      have hspaced : spaced (i :: j :: items) ≠ [] ∧ spaced (j :: items) ≠ [] := by
        cases items <;> simp [spaced]
      obtain ⟨part, parts, hparts⟩ := List.exists_cons_of_ne_nil hspaced.2
      rw [spaced, hparts, Text.joinWith, ← hparts, hrest, Text.joinWith]
      simp

theorem neutral_blank : Neutral ' ' := neutral_of_isBlank (by decide)

theorem similar_spaced (i : List Char) : Similar i (' ' :: i) := (similar_cons neutral_blank i).symm

theorem changed_spaced (items : List (List Char)) : Changed items (spaced items) := by
  induction items with
  | nil => exact .nil
  | cons i items ih =>
    cases items with
    | nil =>
      have hright := (similar_append_singleton neutral_blank i).symm
      exact .keep (hright.trans (similar_spaced _)) .nil
    | cons j items => exact .keep (similar_spaced i) ih

theorem trim_spaced {i : List Char} (h : Trimmed i) : trim (' ' :: i) = i ∧ trim (' ' :: (i ++ [' '])) = i := by
  have hblank : ∀ b ∈ [' '], isBlank b = true := List.all_eq_true.1 (by decide)
  have hright := Text.trim_append hblank hblank h
  have hleft : trim ([' '] ++ (i ++ [])) = i :=
    Text.trim_append hblank (fun b hb => absurd hb List.not_mem_nil) h
  rw [List.append_nil] at hleft
  exact ⟨hleft, hright⟩

theorem map_trim_spaced {items : List (List Char)} (h : ∀ i ∈ items, Trimmed i) :
    (spaced items).map trim = items := by
  induction items with
  | nil => rfl
  | cons i items ih =>
    have hi := trim_spaced (h i List.mem_cons_self)
    cases items with
    | nil => rw [spaced, List.map_singleton, hi.2]
    | cons j items => rw [spaced, List.map_cons, hi.1, ih fun k hk => h k (List.mem_cons_of_mem _ hk)]

theorem stripBrackets_brackets (cs : List Char) : stripBrackets ('[' :: (cs ++ [']'])) = cs := by
  rw [stripBrackets]
  simp

theorem trimmed_brackets (cs : List Char) : Trimmed ('[' :: (cs ++ [']'])) := by
  refine ⟨fun c hc => ?_, fun c hc => ?_⟩
  · cases hc
    decide
  · rw [← List.cons_append, List.getLast?_concat] at hc
    cases hc
    decide

theorem renderArray_eq {items : List (List Char)} (hne : items ≠ []) :
    renderArray items = '[' :: (Text.joinWith [','] (spaced items) ++ [']']) := by
  rw [renderArray, if_neg hne, joinWith_spaced hne]
  simp

theorem trimmed_renderArray (items : List (List Char)) : Trimmed (renderArray items) := by
  by_cases hne : items = []
  · subst hne
    exact trimmed_brackets []
  · rw [renderArray_eq hne]
    exact trimmed_brackets _

/-- Reading a written list gives the items it was written from. -/
theorem Tidy.arrayItems_renderArray {items : List (List Char)} (h : Tidy items) :
    arrayItems (renderArray items) = items := by
  rw [arrayItems, Text.trim_eq_self (trimmed_renderArray items)]
  by_cases hne : items = []
  · subst hne
    rfl
  · obtain ⟨i, rest, rfl⟩ := List.exists_cons_of_ne_nil hne
    have hinner : stripBrackets (renderArray (i :: rest)) = Text.joinWith [','] (spaced (i :: rest)) := by
      rw [renderArray_eq hne, stripBrackets_brackets]
    have hsplit : splitTopLevel (Text.joinWith [','] (spaced (i :: rest))) = spaced (i :: rest) :=
      (h.separate.changed (changed_spaced _)).splitTopLevel (by cases rest <;> simp [spaced])
    -- The first item has a character, and it is no blank.
    have hblank : ¬(Text.joinWith [','] (spaced (i :: rest))).all isBlank = true := by
      intro hall
      rw [← Text.trim_eq_nil_iff] at hall
      have hfirst : i.all isBlank = true := by
        rw [Text.trim_eq_nil_iff, joinWith_spaced hne, List.all_eq_true] at hall
        refine List.all_eq_true.2 fun c hc => hall c ?_
        refine List.mem_cons_of_mem _ (List.mem_append_left _ ?_)
        cases rest with
        | nil => exact hc
        | cons j rest => exact List.mem_append_left _ (List.mem_append_left _ hc)
      rw [← Text.trim_eq_nil_iff, Text.trim_eq_self (h.trimmed i List.mem_cons_self)] at hfirst
      exact h.nonempty i List.mem_cons_self hfirst
    rw [hinner, if_neg hblank, hsplit, map_trim_spaced h.trimmed]
    exact List.filter_eq_self.2 fun j hj => by simpa using h.nonempty j hj

/-! ## Names become tokens -/

def token (name : List Char) : List Char := '$' :: '(' :: (name ++ [')'])

theorem trimmed_token (name : List Char) : Trimmed (token name) := by
  refine ⟨fun c hc => ?_, fun c hc => ?_⟩
  · cases hc
    decide
  · rw [token, ← List.cons_append, ← List.cons_append, List.getLast?_concat] at hc
    cases hc
    decide

/-- A token is no name, whatever is in it. -/
theorem isWord_token (name : List Char) : Identifier.isWord (token name) = false := rfl

theorem isRest_of_isWord {cs : List Char} (h : Identifier.isWord cs = true) :
    ∀ c ∈ cs, Identifier.isRest c = true := by
  cases cs with
  | nil => cases h
  | cons c cs =>
    rw [Identifier.isWord, Bool.and_eq_true, Identifier.isStart, Bool.or_eq_true] at h
    refine List.forall_mem_cons.2 ⟨?_, List.all_eq_true.1 h.2⟩
    have halnum : c.isAlpha = true → c.isAlphanum = true := fun ha => by
      rw [Char.isAlphanum, ha, Bool.true_or]
    rw [Identifier.isRest, Bool.or_eq_true]
    exact h.1.imp_left halnum

theorem neutral_of_isWord {cs : List Char} (h : Identifier.isWord cs = true) : ∀ c ∈ cs, Neutral c :=
  fun c hc => neutral_of_class (isRest_of_isWord h c hc) (by decide)

/-- A token counts for as little as the name in it. -/
theorem similar_token {name : List Char} (h : Identifier.isWord name = true) :
    Similar (token name) [] := by
  have hname : ∀ c ∈ name, Neutral c := neutral_of_isWord h
  exact (similar_parentheses hname).trans (similar_nil_of_neutral hname)

/-- An item as it is, or as a token where it is a name. -/
def Wrapped (item item' : List Char) : Prop :=
  item' = item ∨ item' = token item ∧ Identifier.isValid (String.ofList item) = true

theorem isWord_of_isValid_ofList {item : List Char}
    (h : Identifier.isValid (String.ofList item) = true) : Identifier.isWord item = true := by
  rw [Identifier.isValid, Bool.and_eq_true, String.toList_ofList] at h
  exact h.1

namespace Wrapped

variable {item item' : List Char} {items items' : List (List Char)}

theorem similar (h : Wrapped item item') : Similar item item' := by
  rcases h with rfl | ⟨rfl, hvalid⟩
  · exact Similar.refl _
  · have hword := isWord_of_isValid_ofList hvalid
    exact (similar_nil_of_neutral (neutral_of_isWord hword)).trans (similar_token hword).symm

theorem changed (h : List.Forall₂ Wrapped items items') : Changed items items' := by
  induction h with
  | nil => exact .nil
  | cons hitem _ ih => exact .keep hitem.similar ih

end Wrapped

/-- Items stay tidy when some that are names become tokens. -/
theorem Tidy.wrapped {items items' : List (List Char)} (h : Tidy items)
    (hitems : List.Forall₂ Wrapped items items') : Tidy items' where
  separate := h.separate.changed (Wrapped.changed hitems)
  trimmed i hi := by
    obtain ⟨item, hitem, hwrapped⟩ := forall₂_right hitems hi
    rcases hwrapped with rfl | ⟨rfl, _⟩
    · exact h.trimmed _ hitem
    · exact trimmed_token item
  nonempty i hi := by
    obtain ⟨item, hitem, hwrapped⟩ := forall₂_right hitems hi
    rcases hwrapped with rfl | ⟨rfl, _⟩
    · exact h.nonempty _ hitem
    · exact List.cons_ne_nil _ _

/-- Any names, as tokens, are the items of a list. -/
theorem tidy_tokens {names : List (List Char)}
    (h : ∀ name ∈ names, Identifier.isWord name = true) : Tidy (names.map token) where
  separate := separate_of_similar_nil fun i hi => by
    obtain ⟨name, hname, rfl⟩ := List.mem_map.1 hi
    exact similar_token (h name hname)
  trimmed i hi := by
    obtain ⟨name, _, rfl⟩ := List.mem_map.1 hi
    exact trimmed_token name
  nonempty i hi := by
    obtain ⟨name, _, rfl⟩ := List.mem_map.1 hi
    exact List.cons_ne_nil _ _

theorem exists_joinWith_tokens (first : List Char) (rest : List (List Char)) :
    ∃ inner, Text.joinWith [','] ((first :: rest).map token) = '$' :: (inner ++ [')']) := by
  induction rest generalizing first with
  | nil => exact ⟨'(' :: first, rfl⟩
  | cons next rest ih =>
    obtain ⟨inner, hinner⟩ := ih next
    refine ⟨'(' :: (first ++ [')'] ++ [','] ++ '$' :: inner), ?_⟩
    rw [List.map_cons, List.map_cons, Text.joinWith, ← List.map_cons, hinner]
    simp [token]

/-- Tokens with commas between them are the items of a list without brackets. -/
theorem arrayItems_tokens {names : List (List Char)}
    (h : ∀ name ∈ names, Identifier.isWord name = true) :
    arrayItems (Text.joinWith [','] (names.map token)) = names.map token := by
  have htidy := tidy_tokens h
  cases names with
  | nil => rfl
  | cons first rest =>
    obtain ⟨inner, htext⟩ := exists_joinWith_tokens first rest
    have htrimmed : Text.Trimmed ('$' :: (inner ++ [')'])) := by
      refine ⟨fun c hc => ?_, fun c hc => ?_⟩
      · cases hc
        decide
      · rw [← List.cons_append, List.getLast?_concat] at hc
        cases hc
        decide
    have hstrip : stripBrackets ('$' :: (inner ++ [')'])) = '$' :: (inner ++ [')']) := by
      have hlast : ('$' :: (inner ++ [')'])).getLast? = some ')' := by
        rw [← List.cons_append, List.getLast?_concat]
      rw [stripBrackets]
      · simp only [hlast]
        rfl
      · exact fun _ heq => absurd (List.cons.inj heq).1 (by decide)
    have hsplit := htidy.separate.splitTopLevel (List.cons_ne_nil _ _)
    rw [htext] at hsplit
    rw [arrayItems, htext, Text.trim_eq_self htrimmed, hstrip, hsplit,
      List.map_congr_left fun i hi => Text.trim_eq_self (htidy.trimmed i hi), List.map_id']
    have hblank : ('$' :: (inner ++ [')'])).all Text.isBlank = false := rfl
    rw [hblank, if_neg Bool.false_ne_true]
    exact List.filter_eq_self.2 fun i hi => by simpa using htidy.nonempty i hi

/-- Writing items changes none of them, whichever of their names have become tokens
before. -/
theorem arrayItems_renderArray_wrapped (raw : List Char) :
    arrayItems (renderArray (arrayItems raw)) = arrayItems raw ∧
      ∀ items, List.Forall₂ Wrapped (arrayItems raw) items → arrayItems (renderArray items) = items :=
  ⟨(tidy_arrayItems raw).arrayItems_renderArray,
    fun _ hitems => ((tidy_arrayItems raw).wrapped hitems).arrayItems_renderArray⟩

/-- An opening bracket and a quote that stay open, and a backslash before a blank that
is trimmed off. -/
theorem arrayItems_renderArray_wrapped_open :
    List.Forall₂ Wrapped (arrayItems "[ fetch,, load , (b, \"c\\ ]".toList)
        ["$(fetch)".toList, "load".toList, "(b".toList, "\"c\\".toList] ∧
      arrayItems (renderArray ["$(fetch)".toList, "load".toList, "(b".toList, "\"c\\".toList]) =
        ["$(fetch)".toList, "load".toList, "(b".toList, "\"c\\".toList] := by
  have hitems : arrayItems "[ fetch,, load , (b, \"c\\ ]".toList =
      ["fetch".toList, "load".toList, "(b".toList, "\"c\\".toList] := by decide +kernel
  have hwrapped : List.Forall₂ Wrapped (arrayItems "[ fetch,, load , (b, \"c\\ ]".toList)
      ["$(fetch)".toList, "load".toList, "(b".toList, "\"c\\".toList] := by
    rw [hitems]
    exact .cons (.inr ⟨by decide, by decide⟩) (.cons (.inl rfl) (.cons (.inl rfl) (.cons (.inl rfl) .nil)))
  exact ⟨hwrapped, (arrayItems_renderArray_wrapped _).2 _ hwrapped⟩

end Field

namespace TaskGraph

open JobPipeline.Field

theorem element_eq (g : TaskGraph) (item : List Char) :
    g.element item = item ∨
      g.element item = token item ∧ Identifier.isValid (String.ofList item) = true ∧
        g.hasName (String.ofList item) = true := by
  rw [element]
  split
  · next h => exact .inr ⟨rfl, Bool.and_eq_true_iff.1 h⟩
  · exact .inl rfl

theorem wrapped_element (g : TaskGraph) (item : List Char) : Wrapped item (g.element item) := by
  rcases g.element_eq item with heq | ⟨heq, hvalid, _⟩
  · exact .inl heq
  · exact .inr ⟨heq, hvalid⟩

/-- Items stay tidy when those that are names become tokens. -/
theorem tidy_elements (g : TaskGraph) (raw : List Char) : Tidy (g.elements raw) :=
  (tidy_arrayItems raw).wrapped (List.forall₂_map_right_iff.2 (List.forall₂_same.2 fun i _ => g.wrapped_element i))

theorem element_token (g : TaskGraph) (name : List Char) : g.element (token name) = token name := by
  rcases g.element_eq (token name) with heq | ⟨_, hvalid, _⟩
  · exact heq
  · have hword := isWord_of_isValid_ofList hvalid
    rw [isWord_token] at hword
    cases hword

/-- An item that a graph has written is written the same way by a graph with no
other names. -/
theorem element_element {g g' : TaskGraph} (h : ∀ name, g'.hasName name = true → g.hasName name = true)
    (item : List Char) : g'.element (g.element item) = g.element item := by
  rcases g.element_eq item with heq | ⟨heq, _⟩
  · rw [heq]
    rcases g'.element_eq item with heq' | ⟨_, hvalid, hname⟩
    · exact heq'
    · -- The item is a name in the first graph as well, so it was no plain item there.
      have htoken : g.element item = token item := by
        rw [element, hvalid, h _ hname]
        rfl
      rw [← heq, htoken, element_token]
  · rw [heq, element_token]

/-- A written list gives the same elements in every graph without new names. -/
theorem elements_renderArray {g g' : TaskGraph}
    (h : ∀ name, g'.hasName name = true → g.hasName name = true) (raw : List Char) :
    g'.elements (renderArray (g.elements raw)) = g.elements raw := by
  rw [elements, (g.tidy_elements raw).arrayItems_renderArray, elements, List.map_map]
  exact List.map_congr_left fun item _ => element_element h item

/-- The tokens of a written list stay as they are. -/
theorem elements_tokens (g : TaskGraph) {names : List (List Char)}
    (h : ∀ name ∈ names, Identifier.isWord name = true) :
    g.elements (renderArray (names.map token)) = names.map token := by
  rw [elements, (tidy_tokens h).arrayItems_renderArray, List.map_map]
  exact List.map_congr_left fun name _ => g.element_token name

end TaskGraph
end JobPipeline
