import JobPipeline.Disk
import Mathlib.Data.List.Infix
import Mathlib.Data.List.Nodup

/-
A change in a folder is a change of what that folder holds.

Putting an item below a folder, or dropping one, leaves the tree with other items in that
folder and is nowhere else to be seen.  So what has happened to a folder can be told by
its items alone, and of the rest of the tree it is known that it has the folders it had.
-/
namespace JobPipeline
namespace DiskItem

variable {items : List (String × DiskItem)} {name other : String} {item : DiskItem}

/-! ## The items of a folder -/

theorem lookup_replace_self (name : String) (item : DiskItem) (items : List (String × DiskItem)) :
    (replace name item items).lookup name = some item := by
  induction items with
  | nil => rw [replace, List.lookup_cons_self]
  | cons head rest ih =>
    obtain ⟨n, i⟩ := head
    rw [replace]
    split
    · next heq => rw [heq, List.lookup_cons_self]
    · next hne =>
      have hdiff : (name == n) = false := beq_eq_false_iff_ne.2 fun heq => hne heq.symm
      rw [List.lookup_cons, hdiff, ih]

theorem lookup_replace_of_ne (h : other ≠ name) (item : DiskItem) (items : List (String × DiskItem)) :
    (replace name item items).lookup other = items.lookup other := by
  have hdiff : (other == name) = false := beq_eq_false_iff_ne.2 h
  induction items with
  | nil => rw [replace, List.lookup_cons, hdiff]
  | cons head rest ih =>
    obtain ⟨n, i⟩ := head
    rw [replace]
    split
    · next heq => rw [heq, List.lookup_cons, List.lookup_cons, hdiff]
    · rw [List.lookup_cons, List.lookup_cons, ih]

theorem replace_replace (name : String) (item item' : DiskItem) (items : List (String × DiskItem)) :
    replace name item' (replace name item items) = replace name item' items := by
  induction items with
  | nil => rw [replace, replace, replace, if_pos rfl]
  | cons head rest ih =>
    obtain ⟨n, i⟩ := head
    rw [replace]
    split
    · next heq => rw [replace, replace, if_pos heq, if_pos heq]
    · next hne => rw [replace, replace, if_neg hne, if_neg hne, ih]

theorem replace_lookup (h : items.lookup name = some item) : replace name item items = items := by
  induction items with
  | nil => cases h
  | cons head rest ih =>
    obtain ⟨n, i⟩ := head
    rw [replace]
    split
    · next heq =>
      rw [heq, List.lookup_cons_self] at h
      rw [Option.some.inj h]
    · next hne =>
      have hdiff : (name == n) = false := beq_eq_false_iff_ne.2 fun heq => hne heq.symm
      rw [List.lookup_cons, hdiff] at h
      rw [ih h]

theorem replace_of_lookup_none (h : items.lookup name = none) (item : DiskItem) :
    replace name item items = items ++ [(name, item)] := by
  induction items with
  | nil => rfl
  | cons head rest ih =>
    obtain ⟨n, i⟩ := head
    rw [List.lookup_cons] at h
    split at h
    · cases h
    · next hdiff =>
      have hne : n ≠ name := fun heq => beq_eq_false_iff_ne.1 hdiff heq.symm
      rw [replace, if_neg hne, ih h, List.cons_append]

theorem keys_replace (name : String) (item : DiskItem) (items : List (String × DiskItem)) :
    (replace name item items).map Prod.fst =
      if name ∈ items.map Prod.fst then items.map Prod.fst else items.map Prod.fst ++ [name] := by
  induction items with
  | nil => rfl
  | cons head rest ih =>
    obtain ⟨n, i⟩ := head
    rw [replace]
    by_cases heq : n = name
    · rw [if_pos heq, if_pos (by rw [List.map_cons, heq]; exact List.mem_cons_self)]
      rfl
    · have hmem : name ∈ ((n, i) :: rest).map Prod.fst ↔ name ∈ rest.map Prod.fst := by
        rw [List.map_cons, List.mem_cons, or_iff_right (Ne.symm heq)]
      rw [if_neg heq, List.map_cons, ih]
      simp only [hmem]
      split <;> rfl

theorem mem_keys_replace : other ∈ (replace name item items).map Prod.fst ↔
    other ∈ items.map Prod.fst ∨ other = name := by
  rw [keys_replace]
  split
  · next hthere =>
    refine ⟨.inl, fun hor => hor.elim id ?_⟩
    rintro rfl
    exact hthere
  · rw [List.mem_append, List.mem_singleton]

theorem nodup_replace (name : String) (item : DiskItem) (h : (items.map Prod.fst).Nodup) :
    ((replace name item items).map Prod.fst).Nodup := by
  rw [keys_replace]
  split
  · exact h
  · next hnew =>
    exact List.nodup_append'.2 ⟨h, List.nodup_singleton name, List.disjoint_singleton.2 hnew⟩

theorem mem_replace (h : (items.map Prod.fst).Nodup) {e : String × DiskItem}
    (he : e ∈ replace name item items) : e = (name, item) ∨ e.1 ≠ name ∧ e ∈ items := by
  induction items with
  | nil => exact .inl (List.mem_singleton.1 he)
  | cons head rest ih =>
    obtain ⟨n, i⟩ := head
    obtain ⟨hfresh, hrest⟩ := List.nodup_cons.1 h
    rw [replace] at he
    split at he
    · next heq =>
      rcases List.mem_cons.1 he with rfl | he
      · exact .inl (by rw [heq])
      · refine .inr ⟨fun hname => hfresh ?_, List.mem_cons_of_mem _ he⟩
        exact List.mem_map.2 ⟨e, he, hname.trans heq.symm⟩
    · next hne =>
      rcases List.mem_cons.1 he with rfl | he
      · exact .inr ⟨hne, List.mem_cons_self⟩
      · exact (ih hrest he).imp_right (And.imp_right (List.mem_cons_of_mem _))

theorem mem_of_lookup (h : items.lookup name = some item) : (name, item) ∈ items := by
  obtain ⟨front, rest, rfl, -⟩ := List.lookup_eq_some_iff.1 h
  exact List.mem_append_right _ List.mem_cons_self

theorem lookup_of_mem (h : name ∈ items.map Prod.fst) : ∃ item, items.lookup name = some item := by
  cases hlookup : items.lookup name with
  | some item => exact ⟨item, rfl⟩
  | none =>
    obtain ⟨e, he, rfl⟩ := List.mem_map.1 h
    have hdiff := List.lookup_eq_none_iff.1 hlookup e he
    rw [bne_self_eq_false] at hdiff
    cases hdiff

/-! ## Below a folder -/

theorem at?_append (tree : DiskItem) (path rest : List String) :
    tree.at? (path ++ rest) = (tree.at? path).bind fun inner => inner.at? rest := by
  induction path generalizing tree with
  | nil => rw [List.nil_append, at?, Option.bind_some]
  | cons name path ih =>
    cases tree with
    | file content => rfl
    | folder items =>
      rw [List.cons_append, at?, at?]
      cases items.lookup name with
      | none => rfl
      | some inner => exact ih inner

theorem at?_folder (items : List (String × DiskItem)) (name : String) :
    (folder items).at? [name] = items.lookup name := by
  rw [at?]
  cases items.lookup name with
  | none => rfl
  | some inner => rw [Option.bind_some, at?]

theorem put_cons {inner : DiskItem} (h : items.lookup name = some inner) (path : List String)
    (item : DiskItem) :
    (folder items).put (name :: path) item = folder (replace name (inner.put path item) items) := by
  cases path with
  | nil => rfl
  | cons next path =>
    rw [put]
    · simp only [h]
    · intro heq
      cases heq

theorem drop_cons {inner : DiskItem} (h : items.lookup name = some inner) {path : List String}
    (hpath : path ≠ []) :
    (folder items).drop (name :: path) = folder (replace name (inner.drop path) items) := by
  cases path with
  | nil => exact absurd rfl hpath
  | cons next path =>
    rw [drop]
    · simp only [h]
    · intro heq
      cases heq

/-- Below an item that is there, putting is putting into that item. -/
theorem put_append {tree inner : DiskItem} {path : List String} (h : tree.at? path = some inner)
    (rest : List String) (item : DiskItem) :
    tree.put (path ++ rest) item = tree.put path (inner.put rest item) := by
  induction path generalizing tree with
  | nil =>
    cases h
    rfl
  | cons name path ih =>
    cases tree with
    | file content => cases h
    | folder items =>
      rw [at?] at h
      obtain ⟨next, hnext, hinner⟩ := Option.bind_eq_some_iff.1 h
      rw [List.cons_append, put_cons hnext, put_cons hnext, ih hinner]

theorem drop_append {tree inner : DiskItem} {path : List String} (h : tree.at? path = some inner)
    {rest : List String} (hrest : rest ≠ []) :
    tree.drop (path ++ rest) = tree.put path (inner.drop rest) := by
  induction path generalizing tree with
  | nil =>
    cases h
    rfl
  | cons name path ih =>
    cases tree with
    | file content => cases h
    | folder items =>
      rw [at?] at h
      obtain ⟨next, hnext, hinner⟩ := Option.bind_eq_some_iff.1 h
      rw [List.cons_append, drop_cons hnext (List.append_ne_nil_of_right_ne_nil path hrest),
        put_cons hnext, ih hinner]

theorem at?_put_self {tree inner : DiskItem} {path : List String} (h : tree.at? path = some inner)
    (item : DiskItem) : (tree.put path item).at? path = some item := by
  induction path generalizing tree with
  | nil => rfl
  | cons name path ih =>
    cases tree with
    | file content => cases h
    | folder items =>
      rw [at?] at h
      obtain ⟨next, hnext, hinner⟩ := Option.bind_eq_some_iff.1 h
      rw [put_cons hnext, at?, lookup_replace_self]
      exact ih hinner

theorem put_put {tree inner : DiskItem} {path : List String} (h : tree.at? path = some inner)
    (item item' : DiskItem) : (tree.put path item).put path item' = tree.put path item' := by
  induction path generalizing tree with
  | nil => rfl
  | cons name path ih =>
    cases tree with
    | file content => cases h
    | folder items =>
      rw [at?] at h
      obtain ⟨next, hnext, hinner⟩ := Option.bind_eq_some_iff.1 h
      rw [put_cons hnext, put_cons (lookup_replace_self ..), put_cons hnext, replace_replace, ih hinner]

theorem put_at? {tree item : DiskItem} {path : List String} (h : tree.at? path = some item) :
    tree.put path item = tree := by
  induction path generalizing tree with
  | nil =>
    cases h
    rfl
  | cons name path ih =>
    cases tree with
    | file content => cases h
    | folder items =>
      rw [at?] at h
      obtain ⟨next, hnext, hinner⟩ := Option.bind_eq_some_iff.1 h
      rw [put_cons hnext, ih hinner, replace_lookup hnext]

/-- Folders that are not below the one that was changed are still there. -/
theorem at?_put_of_not_prefix {tree inner : DiskItem} {path names : List String} {held : List (String × DiskItem)}
    (hpath : tree.at? path = some inner) (h : tree.at? names = some (folder held))
    (hnot : ¬path <+: names) (item : DiskItem) :
    ∃ held', (tree.put path item).at? names = some (folder held') := by
  induction path generalizing tree names with
  | nil => exact absurd List.nil_prefix hnot
  | cons name path ih =>
    cases tree with
    | file content => cases hpath
    | folder items =>
      rw [at?] at hpath
      obtain ⟨next, hnext, hinner⟩ := Option.bind_eq_some_iff.1 hpath
      rw [put_cons hnext]
      cases names with
      | nil => exact ⟨_, rfl⟩
      | cons other names =>
        rw [at?] at h ⊢
        by_cases heq : other = name
        · subst heq
          rw [hnext] at h
          rw [lookup_replace_self]
          exact ih hinner h fun hprefix => hnot (List.cons_prefix_cons.2 ⟨rfl, hprefix⟩)
        · rw [lookup_replace_of_ne heq]
          exact ⟨held, h⟩

end DiskItem
end JobPipeline
