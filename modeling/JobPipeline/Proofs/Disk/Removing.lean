import JobPipeline.Proofs.Disk.Paths

/-
What is left of a disk when a folder has been removed.

At the folder and below it nothing is left, but the folder itself may stay behind empty.  What
lies neither below the folder nor above it is as it was.  Where a path leads is said by its parts
alone, so after the removal a path leads where it did or nowhere.
-/
namespace JobPipeline
namespace DiskItem

variable {tree tree' inner : DiskItem} {items : List (String × DiskItem)} {path names : List String}
  {name other : String}

theorem lookup_filter_self (name : String) (items : List (String × DiskItem)) :
    (items.filter fun i => i.1 ≠ name).lookup name = none := by
  refine List.lookup_eq_none_iff.2 fun e he => bne_iff_ne.2 ?_
  exact Ne.symm (of_decide_eq_true (List.mem_filter.1 he).2)

theorem lookup_filter_of_ne (h : other ≠ name) (items : List (String × DiskItem)) :
    (items.filter fun i => i.1 ≠ name).lookup other = items.lookup other := by
  induction items with
  | nil => rfl
  | cons head rest ih =>
    obtain ⟨n, i⟩ := head
    by_cases heq : n = name
    · have hdiff : (other == n) = false := beq_eq_false_iff_ne.2 fun hother => h (hother.trans heq)
      rw [List.filter_cons_of_neg (by simpa using heq), ih, List.lookup_cons, hdiff]
    · rw [List.filter_cons_of_pos (by simpa using heq), List.lookup_cons, List.lookup_cons, ih]

theorem at?_concat (h : tree.at? (path ++ [name]) = some inner) :
    ∃ items, tree.at? path = some (folder items) ∧ items.lookup name = some inner := by
  rw [at?_append] at h
  obtain ⟨above, habove, hinner⟩ := Option.bind_eq_some_iff.1 h
  cases above with
  | file content => cases hinner
  | folder items =>
    rw [at?_folder] at hinner
    exact ⟨items, habove, hinner⟩

theorem at?_put_below (h : tree.at? path = some inner) (item : DiskItem) (rest : List String) :
    (tree.put path item).at? (path ++ rest) = item.at? rest := by
  rw [at?_append, at?_put_self h, Option.bind_some]

theorem at?_put_apart (h : tree.at? path = some inner) (hbelow : ¬path <+: names)
    (habove : ¬names <+: path) (item : DiskItem) : (tree.put path item).at? names = tree.at? names := by
  induction path generalizing tree names with
  | nil => exact absurd List.nil_prefix hbelow
  | cons name path ih =>
    cases tree with
    | file content => cases h
    | folder items =>
      rw [at?] at h
      obtain ⟨next, hnext, hinner⟩ := Option.bind_eq_some_iff.1 h
      rw [put_cons hnext]
      cases names with
      | nil => exact absurd List.nil_prefix habove
      | cons other names =>
        rw [at?, at?]
        by_cases heq : other = name
        · subst heq
          rw [lookup_replace_self, hnext]
          exact ih hinner (fun hbegins => hbelow (List.cons_prefix_cons.2 ⟨rfl, hbegins⟩))
            fun hbegins => habove (List.cons_prefix_cons.2 ⟨rfl, hbegins⟩)
        · rw [lookup_replace_of_ne heq]

/-- A tree in which a folder was emptied, or dropped from the folder that it lies in. -/
inductive Cleared (tree : DiskItem) : List String → DiskItem → Prop
  | emptied (names : List String) : Cleared tree names (tree.put names emptyFolder)
  | dropped (path : List String) (name : String) :
      Cleared tree (path ++ [name]) (tree.drop (path ++ [name]))

/-- In the folder above, one item is missing or an empty folder. -/
theorem Cleared.concat (hcleared : Cleared tree (path ++ [name]) tree')
    (h : tree.at? path = some (folder items)) :
    tree' = tree.put path (folder (items.filter fun i => i.1 ≠ name)) ∨
      tree' = tree.put path (folder (replace name emptyFolder items)) := by
  generalize hnames : path ++ [name] = names at hcleared
  cases hcleared with
  | emptied =>
    subst hnames
    exact .inr (put_append h [name] emptyFolder)
  | dropped path' name' =>
    rw [← hnames]
    exact .inl (drop_append h (List.cons_ne_nil name []))

theorem Cleared.below (hcleared : Cleared tree path tree') (h : tree.at? path = some inner)
    (hbelow : path <+: names) : tree'.at? names = none ∨ tree'.at? names = some emptyFolder := by
  obtain ⟨rest, rfl⟩ := hbelow
  cases hcleared with
  | emptied =>
    rw [at?_put_below h]
    cases rest with
    | nil => exact .inr rfl
    | cons name rest => exact .inl rfl
  | dropped path name =>
    obtain ⟨items, hitems, -⟩ := at?_concat h
    rw [drop_append hitems (List.cons_ne_nil name []), List.append_assoc, at?_put_below hitems]
    refine .inl ?_
    rw [List.singleton_append, drop, at?, lookup_filter_self]
    rfl

theorem Cleared.apart (hcleared : Cleared tree path tree') (h : tree.at? path = some inner)
    (hbelow : ¬path <+: names) (habove : ¬names <+: path) : tree'.at? names = tree.at? names := by
  cases hcleared with
  | emptied => exact at?_put_apart h hbelow habove _
  | dropped path name =>
    obtain ⟨items, hitems, -⟩ := at?_concat h
    rw [drop_append hitems (List.cons_ne_nil name [])]
    by_cases hin : path <+: names
    · -- Another item of the folder that the one dropped lay in.
      obtain ⟨rest, rfl⟩ := hin
      rw [at?_put_below hitems, at?_append, hitems, Option.bind_some, drop]
      cases rest with
      | nil =>
        rw [List.append_nil] at habove
        exact absurd (List.prefix_append _ _) habove
      | cons other rest =>
        have hother : other ≠ name := by
          rintro rfl
          exact hbelow ⟨rest, by rw [List.append_assoc]; rfl⟩
        rw [at?, at?, lookup_filter_of_ne hother]
    · exact at?_put_apart hitems hin (fun hbegins => habove (hbegins.trans (List.prefix_append _ _))) _

end DiskItem

namespace Disk

open DiskItem (Cleared)

variable {d d' : Disk} {names : List String} {path : String}

theorem follow_unique {here parts a b : List String} (ha : d.follow here parts = .ok a)
    (hb : d'.follow here parts = .ok b) : a = b := by
  induction parts generalizing here with
  | nil =>
    cases ha
    cases hb
    rfl
  | cons part rest ih =>
    rw [follow] at ha hb
    split at ha
    · cases ha
    · split at hb
      · cases hb
      · split at ha
        · next hsame => rw [if_pos hsame] at hb; exact ih ha hb
        · next hsame =>
          rw [if_neg hsame] at hb
          split at ha
          · next hup => rw [if_pos hup] at hb; exact ih ha hb
          · next hup =>
            rw [if_neg hup] at hb
            split at ha
            · cases ha
            · next hshort => rw [if_neg hshort] at hb; exact ih ha hb

/-- Where a path leads is the same on every disk on which it leads somewhere. -/
theorem resolve_unique {a b : List String} (ha : d.resolve path = .ok a) (hb : d'.resolve path = .ok b)
    (hcurrent : d'.current = d.current) : a = b := by
  rw [resolve] at ha hb
  split at ha
  · cases ha
  · next hne =>
    rw [if_neg hne] at hb
    split at ha
    · cases ha
    · next hfault =>
      rw [hfault] at hb
      have horigin : d'.origin path = d.origin path := by rw [origin, origin, hcurrent]
      rw [horigin] at hb
      exact follow_unique ha hb

/-- A folder that is removed is cleared, whatever is answered. -/
theorem removeFolder_cleared {held : List (String × DiskItem)} (hresolve : d.resolve path = .ok names)
    (hfolder : d.root.at? names = some (.folder held)) :
    ∃ answer root, d.removeFolder path = (answer, { d with root }) ∧ Cleared d.root names root := by
  have hfind : d.find path = .ok (.folder held) := by
    rw [find, hresolve]
    simp only [hfolder]
  have hemptied : Cleared d.root names (d.root.put names .emptyFolder) := .emptied names
  rw [removeFolder, hfind, hresolve]
  dsimp only
  split
  · exact ⟨_, _, rfl, hemptied⟩
  · split
    · exact ⟨_, _, rfl, hemptied⟩
    · split
      · exact ⟨_, _, rfl, hemptied⟩
      · split
        · exact ⟨_, _, rfl, hemptied⟩
        · next hne =>
          obtain ⟨front, last, rfl⟩ := List.eq_nil_or_concat names |>.resolve_left hne
          rw [List.concat_eq_append]
          exact ⟨_, _, rfl, .dropped front last⟩

/-- What is no folder stays where it is. -/
theorem removeFolder_of_not_folder
    (h : ∀ names held, d.resolve path = .ok names → d.root.at? names ≠ some (.folder held)) :
    ∃ fault, d.removeFolder path = (.error fault, d) := by
  rw [removeFolder, find]
  cases hresolve : d.resolve path with
  | error fault => exact ⟨fault, rfl⟩
  | ok names =>
    dsimp only
    cases hat : d.root.at? names with
    | none => exact ⟨_, rfl⟩
    | some item =>
      cases item with
      | file content => exact ⟨_, rfl⟩
      | folder held => exact absurd hat (h names held hresolve)

end Disk
end JobPipeline
