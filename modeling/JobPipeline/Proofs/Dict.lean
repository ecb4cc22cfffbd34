import JobPipeline.Dict
import Mathlib.Data.List.Forall2

/-
Look-ups in a dictionary after it was changed.

The entries are an ordered list, but nothing outside of `Dict` sees the order:
a dictionary is known by its look-ups, and the laws here are all that the proofs
about graphs, parsed sources and job configurations use of it.
-/
namespace JobPipeline

open Text (Precedes)

namespace Entries

variable {α : Type}

theorem find?_insert (key other : String) (value : α) (entries : List (String × α)) :
    find? other (insert key value entries) = if key = other then some value else find? other entries := by
  induction entries with
  | nil => rfl
  | cons head rest ih =>
    obtain ⟨k, a⟩ := head
    rw [insert]
    by_cases hlt : Precedes key k
    · rw [if_pos hlt]
      rfl
    · rw [if_neg hlt]
      by_cases hgt : Precedes k key
      · have hne : k ≠ key := fun e => Text.not_precedes_self key (e ▸ hgt)
        rw [if_pos hgt, find?, find?, ih]
        by_cases hk : k = other
        · rw [if_pos hk, if_neg (fun e => hne (hk.trans e.symm)), if_pos hk]
        · rw [if_neg hk, if_neg hk]
      · have heq : key = k := Text.eq_of_not_precedes hlt hgt
        subst heq
        rw [if_neg hgt, find?, find?]
        by_cases hk : key = other
        · rw [if_pos hk, if_pos hk]
        · rw [if_neg hk, if_neg hk, if_neg hk]

theorem find?_erase (key other : String) (entries : List (String × α)) :
    find? other (erase key entries) = if key = other then none else find? other entries := by
  induction entries with
  | nil => simp [erase, find?]
  | cons head rest ih =>
    obtain ⟨k, a⟩ := head
    by_cases hk : k = key
    · have hdrop : erase key ((k, a) :: rest) = erase key rest := by simp [erase, hk]
      rw [hdrop, ih, find?, hk]
      by_cases ho : key = other
      · rw [if_pos ho, if_pos ho]
      · rw [if_neg ho, if_neg ho, if_neg ho]
    · have hkeep : erase key ((k, a) :: rest) = (k, a) :: erase key rest := by simp [erase, hk]
      rw [hkeep, find?, find?, ih]
      by_cases ho : k = other
      · rw [if_pos ho, if_neg (fun e => hk (ho.trans e.symm)), if_pos ho]
      · rw [if_neg ho, if_neg ho]

theorem mem_of_find? {key : String} {value : α} {entries : List (String × α)}
    (h : find? key entries = some value) : (key, value) ∈ entries := by
  induction entries with
  | nil => cases h
  | cons head rest ih =>
    obtain ⟨k, a⟩ := head
    rw [find?] at h
    by_cases hk : k = key
    · rw [if_pos hk] at h
      cases h
      rw [hk]
      exact List.mem_cons_self
    · rw [if_neg hk] at h
      exact List.mem_cons_of_mem _ (ih h)

theorem find?_of_mem {key : String} {value : α} {entries : List (String × α)}
    (hs : Sorted entries) (h : (key, value) ∈ entries) : find? key entries = some value := by
  induction entries with
  | nil => cases h
  | cons head rest ih =>
    obtain ⟨k, a⟩ := head
    rw [find?]
    rcases List.mem_cons.1 h with h | h
    · cases h
      rw [if_pos rfl]
    · have hlt : Precedes k key := (List.pairwise_cons.1 hs).1 _ h
      have hne : k ≠ key := fun e => Text.not_precedes_self key (e ▸ hlt)
      rw [if_neg hne]
      exact ih (List.pairwise_cons.1 hs).2 h

/-- Entries that agree key by key are put in the same places. -/
theorem forall₂_insert {β : Type} {R : α → β → Prop} (key : String) {a : α} {b : β} (hab : R a b)
    {entries : List (String × α)} {entries' : List (String × β)}
    (h : List.Forall₂ (fun e e' => e.1 = e'.1 ∧ R e.2 e'.2) entries entries') :
    List.Forall₂ (fun e e' => e.1 = e'.1 ∧ R e.2 e'.2) (insert key a entries) (insert key b entries') := by
  induction h with
  | nil => exact .cons ⟨rfl, hab⟩ .nil
  | @cons e e' rest rest' hfirst hrest ih =>
    obtain ⟨k, value⟩ := e
    obtain ⟨k', value'⟩ := e'
    obtain ⟨rfl, hvalue⟩ := hfirst
    rw [insert, insert]
    split
    · exact .cons ⟨rfl, hab⟩ (.cons ⟨rfl, hvalue⟩ hrest)
    · split
      · exact .cons ⟨rfl, hvalue⟩ ih
      · exact .cons ⟨rfl, hab⟩ hrest

theorem find?_map {β : Type} (f : α → β) (key : String) (entries : List (String × α)) :
    find? key (entries.map fun e => (e.1, f e.2)) = (find? key entries).map f := by
  induction entries with
  | nil => rfl
  | cons head rest ih =>
    obtain ⟨k, a⟩ := head
    rw [List.map_cons, find?, find?]
    split
    · rfl
    · exact ih

end Entries

namespace Dict

variable {α : Type}

@[simp] theorem find?_empty (key : String) : (empty : Dict α).find? key = none := rfl

theorem find?_insert (d : Dict α) (key other : String) (value : α) :
    (d.insert key value).find? other = if key = other then some value else d.find? other :=
  Entries.find?_insert key other value d.entries

@[simp] theorem find?_insert_self (d : Dict α) (key : String) (value : α) :
    (d.insert key value).find? key = some value := by
  rw [find?_insert, if_pos rfl]

theorem find?_insert_of_ne (d : Dict α) {key other : String} (h : key ≠ other) (value : α) :
    (d.insert key value).find? other = d.find? other := by
  rw [find?_insert, if_neg h]

theorem find?_erase (d : Dict α) (key other : String) :
    (d.erase key).find? other = if key = other then none else d.find? other :=
  Entries.find?_erase key other d.entries

theorem find?_map {β : Type} (f : α → β) (d : Dict α) (key : String) :
    (d.map f).find? key = (d.find? key).map f := Entries.find?_map f key d.entries

theorem mem_entries_iff (d : Dict α) (key : String) (value : α) :
    (key, value) ∈ d.entries ↔ d.find? key = some value :=
  ⟨Entries.find?_of_mem d.sorted, Entries.mem_of_find?⟩

theorem mem_keys_iff (d : Dict α) (key : String) : key ∈ d.keys ↔ (d.find? key).isSome = true := by
  rw [Option.isSome_iff_exists, keys, List.mem_map]
  constructor
  · rintro ⟨⟨key, value⟩, hmem, rfl⟩
    exact ⟨value, (d.mem_entries_iff key value).1 hmem⟩
  · rintro ⟨value, hvalue⟩
    exact ⟨(key, value), (d.mem_entries_iff key value).2 hvalue, rfl⟩

theorem insertAll_cons (d : Dict α) (key : String) (value : α) (pairs : List (String × α)) :
    d.insertAll ((key, value) :: pairs) = (d.insert key value).insertAll pairs := rfl

/-- A key that no pair has is looked up in the dictionary that was there. -/
theorem find?_insertAll_of_not_mem {key : String} {pairs : List (String × α)}
    (h : key ∉ pairs.map Prod.fst) (d : Dict α) : (d.insertAll pairs).find? key = d.find? key := by
  induction pairs generalizing d with
  | nil => rfl
  | cons pair rest ih =>
    obtain ⟨k, a⟩ := pair
    rw [List.map_cons, List.mem_cons, not_or] at h
    rw [insertAll_cons, ih h.2, find?_insert_of_ne d (fun e => h.1 e.symm)]

/-- Pairs with distinct keys are all found again. -/
theorem find?_insertAll_of_mem {key : String} {value : α} {pairs : List (String × α)}
    (hd : (pairs.map Prod.fst).Nodup) (h : (key, value) ∈ pairs) (d : Dict α) :
    (d.insertAll pairs).find? key = some value := by
  induction pairs generalizing d with
  | nil => cases h
  | cons pair rest ih =>
    obtain ⟨k, a⟩ := pair
    rw [List.map_cons, List.nodup_cons] at hd
    rw [insertAll_cons]
    rcases List.mem_cons.1 h with h | h
    · cases h
      rw [find?_insertAll_of_not_mem hd.1, find?_insert_self]
    · exact ih hd.2 h _

theorem find?_ofList_of_mem {key : String} {value : α} {pairs : List (String × α)}
    (hd : (pairs.map Prod.fst).Nodup) (h : (key, value) ∈ pairs) :
    (ofList pairs).find? key = some value := find?_insertAll_of_mem hd h empty

theorem find?_ofList_of_not_mem {key : String} {pairs : List (String × α)}
    (h : key ∉ pairs.map Prod.fst) : (ofList pairs).find? key = none :=
  find?_insertAll_of_not_mem h empty

theorem nodup_keys (d : Dict α) : (d.entries.map Prod.fst).Nodup := by
  refine List.pairwise_map.2 (d.sorted.imp fun {a b} hab heq => ?_)
  rw [heq] at hab
  exact Text.not_precedes_self _ hab

/-- A dictionary is known by its look-ups. -/
theorem eq_of_find? {d d' : Dict α} (h : ∀ key, d.find? key = d'.find? key) : d = d' := by
  have hnodup : ∀ d : Dict α, d.entries.Nodup := fun d =>
    List.Pairwise.of_map Prod.fst (fun _ _ hne heq => hne (congrArg Prod.fst heq)) d.nodup_keys
  have hperm : d.entries.Perm d'.entries := by
    refine (List.perm_ext_iff_of_nodup (hnodup d) (hnodup d')).2 fun e => ?_
    exact (d.mem_entries_iff e.1 e.2).trans (h e.1 ▸ (d'.mem_entries_iff e.1 e.2).symm)
  refine Dict.ext (hperm.eq_of_pairwise (fun a b _ _ hab hba => ?_) d.sorted d'.sorted)
  exact absurd (Text.Precedes.trans hab hba) (Text.not_precedes_self _)

theorem mem_values_ofList {pairs : List (String × α)} (hd : (pairs.map Prod.fst).Nodup) {value : α} :
    value ∈ (ofList pairs).values ↔ value ∈ pairs.map Prod.snd := by
  rw [values, List.mem_map, List.mem_map]
  constructor
  · rintro ⟨⟨key, other⟩, hmem, rfl⟩
    have hfound := ((ofList pairs).mem_entries_iff key other).1 hmem
    have hkey : key ∈ pairs.map Prod.fst := by
      refine Decidable.byContradiction fun hnot => ?_
      rw [find?_ofList_of_not_mem hnot] at hfound
      cases hfound
    obtain ⟨⟨k, stored⟩, hpair, rfl⟩ := List.mem_map.1 hkey
    rw [find?_ofList_of_mem hd hpair] at hfound
    cases hfound
    exact ⟨_, hpair, rfl⟩
  · rintro ⟨⟨key, other⟩, hpair, rfl⟩
    exact ⟨_, ((ofList pairs).mem_entries_iff key other).2 (find?_ofList_of_mem hd hpair), rfl⟩

/-- The values of another dictionary, each changed by `f`, go over those that
were there. -/
theorem find?_insertAll_entries {β : Type} (d : Dict β) (other : Dict α) (f : α → β) (key : String) :
    (d.insertAll (other.entries.map fun e => (e.1, f e.2))).find? key =
      ((other.find? key).map f).or (d.find? key) := by
  have hkeys : (other.entries.map fun e => (e.1, f e.2)).map Prod.fst = other.entries.map Prod.fst := by
    rw [List.map_map]
    rfl
  cases hfound : other.find? key with
  | some value =>
    have hmem := (other.mem_entries_iff key value).2 hfound
    exact find?_insertAll_of_mem (hkeys ▸ other.nodup_keys)
      (List.mem_map_of_mem (f := fun e => (e.1, f e.2)) hmem) d
  | none =>
    refine find?_insertAll_of_not_mem (fun hmem => ?_) d
    rw [hkeys] at hmem
    obtain ⟨⟨k, value⟩, hentry, rfl⟩ := List.mem_map.1 hmem
    rw [(other.mem_entries_iff k value).1 hentry] at hfound
    cases hfound

/-- Pairs that agree key by key give dictionaries that do. -/
theorem forall₂_values_ofList {β : Type} {R : α → β → Prop} {pairs : List (String × α)}
    {pairs' : List (String × β)}
    (h : List.Forall₂ (fun e e' => e.1 = e'.1 ∧ R e.2 e'.2) pairs pairs') :
    List.Forall₂ R (ofList pairs).values (ofList pairs').values := by
  have hall : ∀ (d : Dict α) (d' : Dict β),
      List.Forall₂ (fun e e' => e.1 = e'.1 ∧ R e.2 e'.2) d.entries d'.entries →
      List.Forall₂ (fun e e' => e.1 = e'.1 ∧ R e.2 e'.2) (d.insertAll pairs).entries
        (d'.insertAll pairs').entries := by
    induction h with
    | nil => exact fun _ _ hentries => hentries
    | @cons e e' rest rest' hfirst _ ih =>
      intro d d' hentries
      refine ih (d.insert e.1 e.2) (d'.insert e'.1 e'.2) ?_
      rw [← hfirst.1]
      exact Entries.forall₂_insert e.1 hfirst.2 hentries
  rw [values, values, List.forall₂_map_left_iff, List.forall₂_map_right_iff]
  exact (hall empty empty .nil).imp fun _ _ hentry => hentry.2

end Dict
end JobPipeline
