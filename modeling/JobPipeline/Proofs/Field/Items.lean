import JobPipeline.Proofs.Field.Parts
import JobPipeline.Proofs.Field.Quotes
import JobPipeline.Proofs.Text.Blank
import JobPipeline.Task.Identifier

/-
The items of a list are found again in the list that is written for them.

Writing a list puts a blank on each side of every item, and before it is written
some items have lost their blanks, some are gone altogether and some names have
become tokens.  No bracket and no quote takes part in any of this, so the items
are `Separate` all along, and separate texts are what `splitTopLevel` gives back.
-/
namespace JobPipeline
namespace Field

open Text (isBlank trim Trimmed)

/-- Texts that are cut apart again when they are put together with commas. -/
structure Separate (items : List (List Char)) : Prop where
  parted : Parted [] (items.map atoms)
  quotes : items.Pairwise fun i j => .char '"' ∈ atoms i → literal? j = none

theorem plain_comma : Plain ',' := by decide

/-! ## Cutting and putting together -/

/-- No quote is closed in a list when none is in any of its parts. -/
theorem literal?_joined {parts : List (List Atom)} (hne : parts ≠ []) :
    literal? (textOf (joined parts)) = none ↔ ∀ p ∈ parts, literal? (textOf p) = none := by
  induction parts with
  | nil => exact absurd rfl hne
  | cons p parts ih =>
    cases parts with
    | nil => simp [joined]
    | cons q parts =>
      have hsplit : textOf (joined (p :: q :: parts)) = textOf p ++ ',' :: textOf (joined (q :: parts)) := by
        rw [joined, textOf_append, textOf_cons]
        rfl
      rw [hsplit, literal?_append_eq_none plain_comma, ih (List.cons_ne_nil q parts),
        List.forall_mem_cons (a := p)]

/-- The parts of a list that was read are what each of them is read as alone. -/
theorem Scanned.of_joined {parts : List (List Atom)} (h : Scanned (joined parts)) :
    (∀ p ∈ parts, Scanned p) ∧
      parts.Pairwise fun p q => .char '"' ∈ p → literal? (textOf q) = none := by
  induction parts with
  | nil => exact ⟨fun p hp => absurd hp List.not_mem_nil, List.Pairwise.nil⟩
  | cons p parts ih =>
    cases parts with
    | nil => exact ⟨fun q hq => List.mem_singleton.1 hq ▸ h, List.pairwise_singleton _ _⟩
    | cons q parts =>
      obtain ⟨hp, hrest, hquote⟩ := Scanned.of_append plain_comma h
      obtain ⟨hall, hpairs⟩ := ih hrest
      refine ⟨List.forall_mem_cons.2 ⟨hp, hall⟩, List.pairwise_cons.2 ⟨fun r hr hmem => ?_, hpairs⟩⟩
      exact (literal?_joined (List.cons_ne_nil q parts)).1 (hquote hmem) r hr

theorem separate_splitTopLevel (cs : List Char) : Separate (splitTopLevel cs) := by
  have hscanned : Scanned (joined (cuts [] (atoms cs))) := by
    rw [joined_cuts]
    exact scanned_atoms cs
  obtain ⟨hall, hpairs⟩ := hscanned.of_joined
  have hatoms : ((cuts [] (atoms cs)).map textOf).map atoms = cuts [] (atoms cs) := by
    rw [List.map_map]
    exact (List.map_congr_left hall).trans (List.map_id _)
  rw [splitTopLevel_eq]
  refine ⟨by rw [hatoms]; exact parted_cuts [] _, List.pairwise_map.2 ?_⟩
  refine hpairs.imp_of_mem fun {p q} hp _ hquote hmem => hquote ?_
  rw [← hall p hp]
  exact hmem

theorem atoms_joinWith {items : List (List Char)} (h : items.Pairwise fun i j =>
    .char '"' ∈ atoms i → literal? j = none) :
    atoms (Text.joinWith [','] items) = joined (items.map atoms) := by
  induction items with
  | nil => rw [Text.joinWith, atoms]; rfl
  | cons i items ih =>
    cases items with
    | nil => rfl
    | cons j items =>
      obtain ⟨hi, hrest⟩ := List.pairwise_cons.1 h
      have hjoin : Text.joinWith [','] (i :: j :: items) =
          i ++ ',' :: Text.joinWith [','] (j :: items) := by simp [Text.joinWith]
      have hnone : .char '"' ∈ atoms i → literal? (Text.joinWith [','] (j :: items)) = none := by
        intro hmem
        have htext : Text.joinWith [','] (j :: items) = textOf (joined ((j :: items).map atoms)) := by
          rw [textOf_joined, List.map_map]
          exact congrArg _ ((List.map_congr_left fun k _ => textOf_atoms k).trans (List.map_id _)).symm
        rw [htext, literal?_joined (by simp)]
        intro p hp
        obtain ⟨k, hk, rfl⟩ := List.mem_map.1 hp
        rw [textOf_atoms]
        exact hi k hk hmem
      rw [hjoin, atoms_append plain_comma hnone, ih hrest]
      rfl

/-- Separate texts are given back. -/
theorem Separate.splitTopLevel {items : List (List Char)} (h : Separate items) (hne : items ≠ []) :
    splitTopLevel (Text.joinWith [','] items) = items := by
  rw [splitTopLevel_eq, atoms_joinWith h.quotes,
    cuts_joined h.parted (by simpa using hne), List.map_map]
  exact (List.map_congr_left fun i _ => textOf_atoms i).trans (List.map_id _)

/-- The parts of a list, put together with commas, are the list. -/
theorem joinWith_splitTopLevel (cs : List Char) : Text.joinWith [','] (splitTopLevel cs) = cs := by
  rw [splitTopLevel_eq, ← textOf_joined, joined_cuts, textOf_atoms]

/-! ## Changes that keep items apart -/

/-- Texts that nothing around them can tell apart. -/
structure Similar (i j : List Char) : Prop where
  alike : Alike (atoms i) (atoms j)
  quote : .char '"' ∈ atoms i ↔ .char '"' ∈ atoms j
  literal : literal? i = none ↔ literal? j = none

namespace Similar

variable {i j k : List Char}

theorem refl (i : List Char) : Similar i i := ⟨Alike.refl _, Iff.rfl, Iff.rfl⟩

theorem symm (h : Similar i j) : Similar j i := ⟨h.alike.symm, h.quote.symm, h.literal.symm⟩

theorem trans (h : Similar i j) (h' : Similar j k) : Similar i k :=
  ⟨h.alike.trans h'.alike, h.quote.trans h'.quote, h.literal.trans h'.literal⟩

end Similar

/-- A character that takes part in nothing. -/
def Neutral (c : Char) : Prop := Plain c ∧ Ordinary (.char c)

theorem similar_cons {c : Char} (h : Neutral c) (i : List Char) : Similar (c :: i) i where
  alike := by
    rw [atoms_cons h.1.1]
    exact (alike_ordinary h.2).append (Alike.refl _)
  quote := by
    rw [atoms_cons h.1.1, List.mem_cons, or_iff_right]
    exact fun heq => h.1.1 (Atom.char.inj heq).symm
  literal := by
    rw [literal?_cons_plain h.1, Option.map_eq_none_iff]

theorem similar_append_singleton {c : Char} (h : Neutral c) (i : List Char) :
    Similar (i ++ [c]) i where
  alike := by
    rw [atoms_append h.1 fun _ => rfl, atoms]
    have := (Alike.refl (atoms i)).append (alike_ordinary h.2)
    rwa [List.append_nil] at this
  quote := by
    rw [atoms_append h.1 fun _ => rfl, atoms, List.mem_append, List.mem_singleton, or_iff_left]
    exact fun heq => h.1.1 (Atom.char.inj heq).symm
  literal := by
    rw [literal?_append_eq_none h.1]
    simp [literal?]

theorem similar_append {before behind : List Char} (hbefore : ∀ b ∈ before, Neutral b)
    (hbehind : ∀ b ∈ behind, Neutral b) (i : List Char) :
    Similar (before ++ (i ++ behind)) i := by
  have hright : ∀ i, Similar (i ++ behind) i := by
    intro i
    induction behind generalizing i with
    | nil =>
      rw [List.append_nil]
      exact Similar.refl i
    | cons b behind ih =>
      have hstep := ih (fun c hc => hbehind c (List.mem_cons_of_mem b hc)) (i ++ [b])
      rw [List.append_assoc, List.singleton_append] at hstep
      exact hstep.trans (similar_append_singleton (hbehind b List.mem_cons_self) i)
  induction before with
  | nil => exact hright i
  | cons b before ih =>
    exact (similar_cons (hbefore b List.mem_cons_self) _).trans
      (ih fun c hc => hbefore c (List.mem_cons_of_mem b hc))

/-- A class of characters that take part in nothing. -/
theorem neutral_of_class {p : Char → Bool} {c : Char} (hc : p c = true)
    (hp : ['"', '\\', ',', '(', ')', '[', ']', '\x7b', '\x7d'].any p = false) : Neutral c := by
  have hne : ∀ d ∈ ['"', '\\', ',', '(', ')', '[', ']', '\x7b', '\x7d'], c ≠ d := by
    rintro d hd rfl
    exact List.any_eq_false.1 hp c hd hc
  refine ⟨⟨hne _ (by decide), hne _ (by decide)⟩, ?_, ?_, hne _ (by decide)⟩
  · simp [isOpener, hne '(' (by decide), hne '[' (by decide), hne '\x7b' (by decide)]
  · simp [openerOf?, hne ')' (by decide), hne ']' (by decide), hne '\x7d' (by decide)]

theorem neutral_of_isBlank {c : Char} (h : isBlank c = true) : Neutral c :=
  neutral_of_class h (by decide)

theorem similar_trim (i : List Char) : Similar i (trim i) := by
  obtain ⟨before, behind, hcut, hbefore, hbehind⟩ := Text.exists_trim i
  have h := similar_append (fun b hb => neutral_of_isBlank (hbefore b hb))
    (fun b hb => neutral_of_isBlank (hbehind b hb)) (trim i)
  rwa [← hcut] at h

theorem similar_nil_of_neutral {i : List Char} (h : ∀ c ∈ i, Neutral c) : Similar i [] := by
  have hnone : ∀ b ∈ ([] : List Char), Neutral b := fun b hb => absurd hb List.not_mem_nil
  have := similar_append h hnone []
  rwa [List.append_nil, List.append_nil] at this

/-- A dollar sign and a pair of parentheses count for nothing. -/
theorem similar_parentheses {i : List Char} (h : ∀ c ∈ i, Neutral c) :
    Similar ('$' :: '(' :: (i ++ [')'])) i := by
  have hi := similar_nil_of_neutral h
  have hatoms : atoms ('$' :: '(' :: (i ++ [')'])) =
      .char '$' :: .char '(' :: (atoms i ++ [.char ')']) := by
    have hclose : atoms (i ++ [')']) = atoms i ++ [.char ')'] := by
      rw [atoms_append (by decide) fun _ => rfl, atoms]
    rw [atoms_cons (by decide), atoms_cons (by decide), hclose]
  have hnil : atoms [] = [] := by rw [atoms]
  have halike := hi.alike
  rw [hnil] at halike
  refine ⟨?_, ?_, ?_⟩
  · rw [hatoms]
    refine Alike.trans ?_ halike.symm
    exact (alike_ordinary (a := .char '$') (by decide)).append (alike_pair halike)
  · rw [hatoms]
    simp
  · rw [literal?_cons_plain (by decide), literal?_cons_plain (by decide), Option.map_eq_none_iff,
      Option.map_eq_none_iff, literal?_append_eq_none (by decide)]
    simp [literal?]

/-- Changed items: some are replaced by similar ones, and some that count for
nothing are left out. -/
inductive Changed : List (List Char) → List (List Char) → Prop
  | nil : Changed [] []
  | drop {i : List Char} {is js : List (List Char)} : Similar i [] → Changed is js →
      Changed (i :: is) js
  | keep {i j : List Char} {is js : List (List Char)} : Similar i j → Changed is js →
      Changed (i :: is) (j :: js)

theorem Changed.replaced {is js : List (List Char)} (h : Changed is js) :
    Replaced (is.map atoms) (js.map atoms) := by
  induction h with
  | nil => exact .nil
  | drop hi _ ih =>
    have hnil : atoms [] = [] := by rw [atoms]
    exact .drop (hnil ▸ hi.alike) ih
  | keep hij _ ih => exact .keep hij.alike ih

/-- A changed item was there before the change. -/
theorem Changed.exists_of_mem {is js : List (List Char)} (h : Changed is js) {j : List Char}
    (hj : j ∈ js) : ∃ i ∈ is, Similar i j := by
  induction h with
  | nil => exact absurd hj List.not_mem_nil
  | drop _ _ ih =>
    obtain ⟨i, hi, hsimilar⟩ := ih hj
    exact ⟨i, List.mem_cons_of_mem _ hi, hsimilar⟩
  | keep hij _ ih =>
    rcases List.mem_cons.1 hj with rfl | hj
    · exact ⟨_, List.mem_cons_self, hij⟩
    · obtain ⟨i, hi, hsimilar⟩ := ih hj
      exact ⟨i, List.mem_cons_of_mem _ hi, hsimilar⟩

theorem Separate.changed {is js : List (List Char)} (h : Separate is) (hchanged : Changed is js) :
    Separate js := by
  refine ⟨h.parted.replaced hchanged.replaced, ?_⟩
  have hquotes := h.quotes
  clear h
  induction hchanged with
  | nil => exact List.Pairwise.nil
  | drop _ _ ih => exact ih (List.pairwise_cons.1 hquotes).2
  | keep hij hrest ih =>
    obtain ⟨hhead, htail⟩ := List.pairwise_cons.1 hquotes
    refine List.pairwise_cons.2 ⟨fun j' hj' hmem => ?_, ih htail⟩
    obtain ⟨i', hi', hsimilar⟩ := hrest.exists_of_mem hj'
    exact hsimilar.literal.1 (hhead i' hi' (hij.quote.2 hmem))

theorem parted_of_alike_nil {parts : List (List Atom)} (h : ∀ p ∈ parts, Alike p []) :
    Parted [] parts := by
  induction parts with
  | nil => trivial
  | cons p parts ih =>
    obtain ⟨hp, hparts⟩ := List.forall_mem_cons.1 h
    have hfold : p.foldl pushed [] = [] := hp.pushed []
    have hflatten : Alike parts.flatten [] := by
      clear ih h
      induction parts with
      | nil => exact Alike.refl []
      | cons q parts ih =>
        obtain ⟨hq, hparts⟩ := List.forall_mem_cons.1 hparts
        exact hq.append (ih hparts)
    refine ⟨(hp.solid _ _).2 trivial, ?_, ?_⟩
    · have hnone := hflatten.hits [] [] []
      rw [List.append_nil] at hnone
      rw [hfold, hnone]
      rfl
    · rw [hfold]
      exact ih hparts

/-- Texts that count for nothing are separate, however many there are. -/
theorem separate_of_similar_nil {items : List (List Char)} (h : ∀ i ∈ items, Similar i []) :
    Separate items := by
  have hnil : atoms [] = [] := by rw [atoms]
  refine ⟨parted_of_alike_nil fun p hp => ?_, ?_⟩
  · obtain ⟨i, hi, rfl⟩ := List.mem_map.1 hp
    exact hnil ▸ (h i hi).alike
  · refine List.pairwise_of_forall_mem_list fun i hi j _ hmem => ?_
    rw [(h i hi).quote, hnil] at hmem
    exact absurd hmem List.not_mem_nil

end Field
end JobPipeline
