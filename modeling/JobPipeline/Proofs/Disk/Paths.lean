import JobPipeline.Proofs.Disk.Tree
import JobPipeline.Proofs.Text.Joining

/-
Paths into a folder, whatever the folder holds.

A path is followed through folders that are there.  If it leads to an empty folder, it
passes through no folder below that one, so it goes on leading there whatever is put into
the folder later.  A path with one more name behind it leads to the item of that name, or
is refused for its length alone.
-/
namespace JobPipeline
namespace Disk

open DiskItem (folder file emptyFolder replace)

variable {d : Disk} {base names : List String} {items : List (String × DiskItem)}

theorem folderFault_eq_none :
    d.folderFault names = none ↔ ∃ items, d.root.at? names = some (folder items) := by
  rw [folderFault]
  cases d.root.at? names with
  | none => simp
  | some item => cases item <;> simp

theorem at?_append_name (h : d.root.at? base = some (folder items)) (name : String) :
    d.root.at? (base ++ [name]) = items.lookup name := by
  rw [DiskItem.at?_append, h, Option.bind_some, DiskItem.at?_folder]

/-- What is listed is a folder that the path leads to. -/
theorem resolve_of_list {path : String} (h : d.list path = .ok items) :
    ∃ base, d.resolve path = .ok base ∧ d.root.at? base = some (folder items) := by
  rw [list, find] at h
  cases hresolve : d.resolve path with
  | error fault =>
    rw [hresolve] at h
    cases h
  | ok base =>
    rw [hresolve] at h
    dsimp only at h
    cases hat : d.root.at? base with
    | none =>
      rw [hat] at h
      cases h
    | some item =>
      rw [hat] at h
      cases item with
      | file content => cases h
      | folder held =>
        cases h
        exact ⟨base, rfl, hat⟩

/-! ## A folder with other items -/

/-- The disk with other items in one of its folders. -/
def holding (d : Disk) (base : List String) (items : List (String × DiskItem)) : Disk :=
  { d with root := d.root.put base (folder items) }

theorem at?_holding {item : DiskItem} (h : d.root.at? base = some item) :
    (d.holding base items).root.at? base = some (folder items) := DiskItem.at?_put_self h _

theorem holding_holding {item : DiskItem} (h : d.root.at? base = some item)
    (items' : List (String × DiskItem)) :
    (d.holding base items).holding base items' = d.holding base items' := by
  rw [holding, holding, DiskItem.put_put h]
  rfl

theorem holding_self (h : d.root.at? base = some (folder items)) : d.holding base items = d := by
  rw [holding, DiskItem.put_at? h]

/-- Other items in a folder of the folder. -/
theorem holding_append (h : d.root.at? base = some (folder items)) (name : String)
    (held : List (String × DiskItem)) :
    d.holding (base ++ [name]) held = d.holding base (replace name (folder held) items) := by
  rw [holding, DiskItem.put_append h]
  rfl

theorem folderFault_holding (h : d.root.at? base = some (folder []))
    (hnames : d.folderFault names = none) (items : List (String × DiskItem)) :
    (d.holding base items).folderFault names = none := by
  obtain ⟨held, hheld⟩ := folderFault_eq_none.1 hnames
  refine folderFault_eq_none.2 ?_
  by_cases hprefix : base <+: names
  · obtain ⟨rest, rfl⟩ := hprefix
    rw [DiskItem.at?_append, h, Option.bind_some] at hheld
    cases rest with
    | nil =>
      rw [List.append_nil]
      exact ⟨items, at?_holding h⟩
    | cons name rest => cases hheld
  · exact DiskItem.at?_put_of_not_prefix h hheld hprefix _

theorem follow_mono {d' : Disk} (h : ∀ names, d.folderFault names = none → d'.folderFault names = none)
    {here parts names : List String} (hfollow : d.follow here parts = .ok names) :
    d'.follow here parts = .ok names := by
  induction parts generalizing here with
  | nil => exact hfollow
  | cons part rest ih =>
    rw [follow] at hfollow ⊢
    cases hfault : d.folderFault here with
    | some fault =>
      rw [hfault] at hfollow
      cases hfollow
    | none =>
      rw [hfault] at hfollow
      rw [h here hfault]
      dsimp only at hfollow ⊢
      split at hfollow
      · next hsame => rw [if_pos hsame]; exact ih hfollow
      · next hsame =>
        rw [if_neg hsame]
        split at hfollow
        · next hup => rw [if_pos hup]; exact ih hfollow
        · next hup =>
          rw [if_neg hup]
          split at hfollow
          · cases hfollow
          · next hshort => rw [if_neg hshort]; exact ih hfollow

/-- A path that leads to an empty folder leads there whatever the folder comes to hold. -/
theorem resolve_holding {path : String} (hpath : d.resolve path = .ok base)
    (h : d.root.at? base = some (folder [])) (items : List (String × DiskItem)) :
    (d.holding base items).resolve path = .ok base := by
  rw [resolve] at hpath ⊢
  split at hpath
  · cases hpath
  · next hne =>
    rw [if_neg hne]
    cases hfault : pathFault path with
    | some fault =>
      rw [hfault] at hpath
      cases hpath
    | none =>
      rw [hfault] at hpath
      exact follow_mono (fun names hnames => folderFault_holding h hnames items) hpath

/-! ## One name more -/

/-- A name that is a part of a path and leads to an item of that name. -/
structure PlainName (name : String) : Prop where
  noSlash : '/' ∉ name.toList
  first : ∃ c cs, name.toList = c :: cs ∧ c ≠ '.'

theorem PlainName.ne_of_dots {name : String} (h : PlainName name) :
    name ≠ "" ∧ name ≠ "." ∧ name ≠ ".." := by
  obtain ⟨c, cs, hname, hc⟩ := h.first
  refine ⟨?_, ?_, ?_⟩
  · rintro rfl
    cases hname
  · rintro rfl
    exact hc (List.cons.inj hname).1.symm
  · rintro rfl
    exact hc (List.cons.inj hname).1.symm

/-- What a name below a path is refused with, whatever lies there. -/
def refusal? (path name : String) : Option DiskFault :=
  (pathFault (join path name)).or (if longestName < name.utf8ByteSize then some .nameTooLong else none)

theorem follow_append (here front rest : List String) :
    d.follow here (front ++ rest) =
      match d.follow here front with
      | .error fault => .error fault
      | .ok names => d.follow names rest := by
  induction front generalizing here with
  | nil => rfl
  | cons part front ih =>
    rw [List.cons_append, follow, follow]
    cases d.folderFault here with
    | some fault => rfl
    | none =>
      dsimp only
      split
      · exact ih here
      · split
        · exact ih here.dropLast
        · split
          · rfl
          · exact ih (here ++ [part])

theorem parts_join {path name : String} (hpath : path ≠ "") (hname : PlainName name) :
    ∃ front, parts (join path name) = front ++ [name] ∧
      (parts path = front ∨ parts path = front ++ [""]) := by
  have hfirst : name.toList.head? ≠ some '/' := by
    obtain ⟨c, cs, hcs, -⟩ := hname.first
    rw [hcs]
    intro heq
    refine hname.noSlash ?_
    rw [hcs, ← Option.some.inj heq]
    exact List.mem_cons_self
  have hsplit : ∀ front : List Char, Text.splitOn '/' (front ++ '/' :: name.toList) =
      Text.splitOn '/' front ++ [name.toList] := by
    intro front
    rw [Text.splitOn_append_cons, Text.splitOn_of_not_mem hname.noSlash]
  rw [join, if_neg (not_or.2 ⟨hfirst, hpath⟩)]
  split
  · next hlast =>
    obtain ⟨front, hfront⟩ := List.getLast?_eq_some_iff.1 hlast
    refine ⟨(Text.splitOn '/' front).map String.ofList, ?_, .inr ?_⟩
    · rw [parts, String.toList_append, hfront, List.append_assoc, List.singleton_append, hsplit,
        List.map_append, List.map_singleton, String.ofList_toList]
    · rw [parts, hfront, Text.splitOn_append_cons, List.map_append]
      rfl
  · refine ⟨parts path, ?_, .inl rfl⟩
    have htext : (path ++ "/" ++ name).toList = path.toList ++ '/' :: name.toList := by
      rw [String.toList_append, String.toList_append, List.append_assoc]
      rfl
    rw [parts, htext, hsplit, List.map_append, List.map_singleton, String.ofList_toList]
    rfl

theorem origin_join (d : Disk) {path name : String} (hpath : path ≠ "") (hname : PlainName name) :
    d.origin (join path name) = d.origin path := by
  obtain ⟨c, cs, hcs, -⟩ := hname.first
  have hfirst : ¬(name.toList.head? = some '/' ∨ path = "") := by
    refine not_or.2 ⟨fun heq => ?_, hpath⟩
    rw [hcs] at heq
    refine hname.noSlash ?_
    rw [hcs, ← Option.some.inj heq]
    exact List.mem_cons_self
  obtain ⟨e, es, hes⟩ := List.exists_cons_of_ne_nil fun hnil => hpath (String.toList_eq_nil_iff.1 hnil)
  have hhead : ∀ more : String, (path ++ more).toList.head? = path.toList.head? := by
    intro more
    rw [String.toList_append, hes]
    rfl
  have hjoin : (join path name).toList.head? = path.toList.head? := by
    rw [join, if_neg hfirst]
    split
    · exact hhead name
    · rw [String.append_assoc]
      exact hhead _
  rw [origin, origin, hjoin]

/-- The way to a folder is the front of every way into it. -/
theorem exists_follow {path name : String} (h : d.resolve path = .ok base)
    (hname : PlainName name) :
    ∃ front, parts (join path name) = front ++ [name] ∧
      d.follow (d.origin (join path name)) front = .ok base := by
  rw [resolve] at h
  split at h
  · cases h
  · next hpath =>
    split at h
    · cases h
    · obtain ⟨front, hparts, hfront⟩ := parts_join hpath hname
      refine ⟨front, hparts, ?_⟩
      rw [origin_join d hpath hname]
      rcases hfront with hfront | hfront
      · rwa [← hfront]
      · rw [hfront, follow_append] at h
        split at h
        · cases h
        · next here hhere =>
          rw [follow] at h
          split at h
          · cases h
          · rw [if_pos (.inl rfl), follow] at h
            rw [hhere, h]

theorem join_ne_empty {path name : String} (hname : PlainName name) : join path name ≠ "" := by
  have hne := hname.ne_of_dots.1
  rw [join]
  split
  · exact hne
  · split
    · exact fun heq => hne (String.append_eq_empty_iff.1 heq).2
    · exact fun heq => hne (String.append_eq_empty_iff.1 heq).2

theorem resolve_join {path name : String} (h : d.resolve path = .ok base)
    (hbase : d.folderFault base = none) (hname : PlainName name) :
    d.resolve (join path name) =
      match refusal? path name with
      | some fault => .error fault
      | none => .ok (base ++ [name]) := by
  obtain ⟨front, hparts, hfront⟩ := exists_follow h hname
  obtain ⟨hempty, hdot, hdots⟩ := hname.ne_of_dots
  rw [resolve, if_neg (join_ne_empty hname), refusal?]
  cases pathFault (join path name) with
  | some fault => rfl
  | none =>
    simp only [Option.none_or]
    rw [hparts, follow_append, hfront]
    dsimp only
    rw [follow, hbase]
    dsimp only
    rw [if_neg (not_or.2 ⟨hempty, hdot⟩), if_neg hdots]
    split <;> rfl

/-! ## Making, writing, removing -/

theorem makeFrom_append {here front : List String} (h : d.follow here front = .ok base)
    (hbase : d.folderFault base = none) (rest : List String) :
    d.makeFrom here (front ++ rest) = d.makeFrom base rest := by
  induction front generalizing here with
  | nil =>
    cases h
    rfl
  | cons part front ih =>
    rw [follow] at h
    split at h
    · cases h
    · rw [List.cons_append, makeFrom]
      split at h
      · next hsame => rw [if_pos hsame]; exact ih h
      · next hsame =>
        rw [if_neg hsame]
        split at h
        · next hup => rw [if_pos hup]; exact ih h
        · next hup =>
          rw [if_neg hup]
          split at h
          · cases h
          · next hshort =>
            -- The next folder is there, since the way goes on in it or ends with it.
            have hnext : d.folderFault (here ++ [part]) = none := by
              cases front with
              | nil =>
                cases h
                exact hbase
              | cons next front =>
                rw [follow] at h
                split at h
                · cases h
                · next hnone => exact hnone
            obtain ⟨held, hheld⟩ := folderFault_eq_none.1 hnext
            rw [if_neg hshort]
            simp only [hheld]
            exact ih h

/-- The folder that a name comes to be in the course of saving below it. -/
theorem makeFolders_join {path name : String} (h : d.resolve path = .ok base)
    (hbase : d.root.at? base = some (folder items)) (hname : PlainName name)
    (hfolder : ∀ content, items.lookup name ≠ some (file content)) :
    d.makeFolders (join path name) =
      match refusal? path name with
      | some fault => (.error fault, d)
      | none => (.ok (), d.holding base
          (replace name ((items.lookup name).getD emptyFolder) items)) := by
  have hnone := folderFault_eq_none.2 ⟨items, hbase⟩
  obtain ⟨front, hparts, hfront⟩ := exists_follow h hname
  obtain ⟨hempty, hdot, hdots⟩ := hname.ne_of_dots
  rw [makeFolders, if_neg (join_ne_empty hname), refusal?]
  cases pathFault (join path name) with
  | some fault => rfl
  | none =>
    simp only [Option.none_or]
    rw [hparts, makeFrom_append hfront hnone, makeFrom, if_neg (not_or.2 ⟨hempty, hdot⟩), if_neg hdots]
    split
    · rfl
    · dsimp only
      rw [at?_append_name hbase]
      cases hlookup : items.lookup name with
      | none =>
        simp only [makeFrom, Option.getD_none]
        rw [DiskItem.put_append hbase]
        rfl
      | some item =>
        cases item with
        | file content => exact absurd hlookup (hfolder content)
        | folder held =>
          simp only [makeFrom, Option.getD_some]
          rw [DiskItem.replace_lookup hlookup, holding_self hbase]

theorem write_join {path name : String} (h : d.resolve path = .ok base)
    (hbase : d.root.at? base = some (folder items)) (hname : PlainName name)
    (hfile : ∀ held, items.lookup name ≠ some (folder held)) (content : String) :
    d.write (join path name) content =
      match refusal? path name with
      | some fault => .error fault
      | none => .ok (d.holding base (replace name (file content) items)) := by
  have hnone := folderFault_eq_none.2 ⟨items, hbase⟩
  rw [write, resolve_join h hnone hname]
  cases refusal? path name with
  | some fault => rfl
  | none =>
    simp only [List.dropLast_concat, hnone, at?_append_name hbase]
    rw [DiskItem.put_append hbase]
    cases hlookup : items.lookup name with
    | none => rfl
    | some item =>
      cases item with
      | file old => rfl
      | folder held => exact absurd hlookup (hfile held)

theorem find_join {path name : String} (h : d.resolve path = .ok base)
    (hbase : d.root.at? base = some (folder items)) (hname : PlainName name) :
    d.find (join path name) =
      match refusal? path name, items.lookup name with
      | some fault, _ => .error fault
      | none, some item => .ok item
      | none, none => .error .notFound := by
  rw [find, resolve_join h (folderFault_eq_none.2 ⟨items, hbase⟩) hname]
  cases refusal? path name with
  | some fault => rfl
  | none =>
    simp only [at?_append_name hbase]
    cases items.lookup name <;> rfl

theorem removeFolder_join {path name : String} (h : d.resolve path = .ok base)
    (hbase : d.root.at? base = some (folder items)) (hname : PlainName name)
    (hrefusal : refusal? path name = none) {held : List (String × DiskItem)}
    (hheld : items.lookup name = some (folder held))
    (hstays : (d.holding base (replace name emptyFolder items)).resolve path = .ok base) :
    d.removeFolder (join path name) = (.ok (), d.holding base (items.filter fun i => i.1 ≠ name)) := by
  obtain ⟨front, hparts, -⟩ := exists_follow h hname
  obtain ⟨hempty, hdot, hdots⟩ := hname.ne_of_dots
  have hfind := find_join h hbase hname
  have hresolve := resolve_join h (folderFault_eq_none.2 ⟨items, hbase⟩) hname
  rw [hrefusal] at hfind hresolve
  rw [hheld] at hfind
  have hlast : lastPart (join path name) = name := by
    have hkept : [name].filter (fun part => part ≠ "") = [name] := by simp [hempty]
    rw [lastPart, hparts, List.filter_append, hkept, List.getLast?_concat]
    rfl
  have hemptied : { d with root := d.root.put (base ++ [name]) emptyFolder } =
      d.holding base (replace name emptyFolder items) := holding_append hbase name []
  have hagain := resolve_join hstays (folderFault_eq_none.2 ⟨_, at?_holding hbase⟩) hname
  have hnotRoot : base ++ [name] ≠ [] := List.append_ne_nil_of_right_ne_nil _ (List.cons_ne_nil _ _)
  rw [hrefusal] at hagain
  rw [removeFolder, hfind, hresolve]
  simp only [hemptied, hagain, hlast, if_neg hdot, if_neg hdots, if_neg hnotRoot]
  rw [DiskItem.drop_append hbase (List.cons_ne_nil name [])]
  rfl

end Disk
end JobPipeline
