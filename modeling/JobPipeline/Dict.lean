import JobPipeline.Text.Order

/-
Dictionaries with text keys.

The entries are kept in increasing order of key, without a repeated key, so two
dictionaries with the same look-ups are the same value.  The order is that of
the code points, which is also the order in which a dictionary is written out.
-/
namespace JobPipeline

open Text (Precedes)

namespace Entries

variable {α : Type}

def find? (key : String) : List (String × α) → Option α
  | [] => none
  | (k, a) :: rest => if k = key then some a else find? key rest

/-- Puts a value under a key, in its place or over the value that was there. -/
def insert (key : String) (value : α) : List (String × α) → List (String × α)
  | [] => [(key, value)]
  | (k, a) :: rest =>
    if Precedes key k then (key, value) :: (k, a) :: rest
    else if Precedes k key then (k, a) :: insert key value rest
    else (key, value) :: rest

def erase (key : String) (entries : List (String × α)) : List (String × α) :=
  entries.filter fun e => e.1 ≠ key

def Sorted (entries : List (String × α)) : Prop :=
  entries.Pairwise fun a b => Precedes a.1 b.1

instance (entries : List (String × α)) : Decidable (Sorted entries) :=
  inferInstanceAs (Decidable (entries.Pairwise fun a b => Precedes a.1 b.1))

theorem mem_insert_fst {key : String} {value : α} {entries : List (String × α)}
    {e : String × α} (h : e ∈ insert key value entries) : e.1 = key ∨ e ∈ entries := by
  induction entries with
  | nil => simp [insert] at h; exact .inl (by rw [h])
  | cons head rest ih =>
    obtain ⟨k, a⟩ := head
    rw [insert] at h
    split at h
    · rcases List.mem_cons.1 h with rfl | h
      · exact .inl rfl
      · exact .inr h
    · split at h
      · rcases List.mem_cons.1 h with rfl | h
        · exact .inr (by simp)
        · rcases ih h with h | h
          · exact .inl h
          · exact .inr (by simp [h])
      · rcases List.mem_cons.1 h with rfl | h
        · exact .inl rfl
        · exact .inr (by simp [h])

theorem sorted_insert {key : String} {value : α} {entries : List (String × α)}
    (h : Sorted entries) : Sorted (insert key value entries) := by
  induction entries with
  | nil => simp [insert, Sorted]
  | cons head rest ih =>
    obtain ⟨k, a⟩ := head
    have hrest : Sorted rest := (List.pairwise_cons.1 h).2
    have hk : ∀ e ∈ rest, Precedes k e.1 := (List.pairwise_cons.1 h).1
    rw [insert]
    split
    · next hlt =>
      refine List.pairwise_cons.2 ⟨fun e he => ?_, h⟩
      rcases List.mem_cons.1 he with rfl | he
      · exact hlt
      · exact hlt.trans (hk e he)
    · next hnlt =>
      split
      · next hgt =>
        refine List.pairwise_cons.2 ⟨fun e he => ?_, ih hrest⟩
        rcases mem_insert_fst he with he | he
        · simpa [he] using hgt
        · exact hk e he
      · next hngt =>
        have heq : key = k := Text.eq_of_not_precedes hnlt hngt
        subst heq
        exact List.pairwise_cons.2 ⟨hk, hrest⟩

theorem sorted_erase {key : String} {entries : List (String × α)} (h : Sorted entries) :
    Sorted (erase key entries) := List.Pairwise.filter _ h

end Entries

structure Dict (α : Type) where
  entries : List (String × α)
  sorted : Entries.Sorted entries

namespace Dict

variable {α β : Type}

instance [DecidableEq α] : DecidableEq (Dict α) := fun a b =>
  if h : a.entries = b.entries then
    .isTrue (by cases a; cases b; simp at h; subst h; rfl)
  else .isFalse (fun hab => h (by rw [hab]))

instance [Repr α] : Repr (Dict α) := ⟨fun d n => reprPrec d.entries n⟩

def empty : Dict α := ⟨[], List.Pairwise.nil⟩

instance : Inhabited (Dict α) := ⟨empty⟩

@[ext] theorem ext {a b : Dict α} (h : a.entries = b.entries) : a = b := by
  cases a; cases b; simp at h; subst h; rfl

def find? (d : Dict α) (key : String) : Option α := Entries.find? key d.entries

def contains (d : Dict α) (key : String) : Bool := (d.find? key).isSome

def insert (d : Dict α) (key : String) (value : α) : Dict α :=
  ⟨Entries.insert key value d.entries, Entries.sorted_insert d.sorted⟩

def erase (d : Dict α) (key : String) : Dict α :=
  ⟨Entries.erase key d.entries, Entries.sorted_erase d.sorted⟩

/-- Every pair inserted in turn, so that the last of two equal keys wins. -/
def insertAll (d : Dict α) (pairs : List (String × α)) : Dict α :=
  pairs.foldl (fun d e => d.insert e.1 e.2) d

def ofList (pairs : List (String × α)) : Dict α := empty.insertAll pairs

def keys (d : Dict α) : List String := d.entries.map (·.1)

def values (d : Dict α) : List α := d.entries.map (·.2)

def isEmpty (d : Dict α) : Bool := d.entries.isEmpty

/-- Changes the value under a key that is present. -/
def modify (d : Dict α) (key : String) (f : α → α) : Dict α :=
  match d.find? key with
  | some a => d.insert key (f a)
  | none => d

def map (f : α → β) (d : Dict α) : Dict β :=
  ⟨d.entries.map fun e => (e.1, f e.2), by
    have h := d.sorted
    simp only [Entries.Sorted, List.pairwise_map]
    exact h⟩

end Dict
end JobPipeline
