import JobPipeline.Proofs.Disk.Removing
import JobPipeline.Proofs.Store.Histories

/-
What removing a spec by any text takes from the other specs.

In memory nothing but the spec goes.  On the disk a folder goes, and with it whatever lies in it:
a text that is no name may stand for the folder of another spec, for the store's folder, or for
one above it.  So a new store finds the live one exactly if no other spec had its folder there,
and the path of the store leads on to where it led.
-/
namespace JobPipeline

open DiskItem (Cleared emptyFolder replace)

/-- A path leads to a folder on the way to an item, or to the item itself. -/
def Disk.Covers (d : Disk) (path : String) (names : List String) : Prop :=
  ∃ above held, d.resolve path = .ok above ∧ d.root.at? above = some (.folder held) ∧ above <+: names

/-- Whether a path covers an item, computed. -/
def Disk.covers (d : Disk) (path : String) (names : List String) : Bool :=
  match d.resolve path with
  | .error _ => false
  | .ok above => (d.root.at? above).any DiskItem.isFolder && above.isPrefixOf names

theorem Disk.covers_iff {d : Disk} {path : String} {names : List String} :
    d.covers path names = true ↔ d.Covers path names := by
  rw [covers, Covers]
  cases d.resolve path with
  | error fault => exact iff_of_false Bool.false_ne_true fun ⟨_, _, habove, _⟩ => nomatch habove
  | ok above =>
    dsimp only
    rw [Bool.and_eq_true, List.isPrefixOf_iff_prefix]
    constructor
    · rintro ⟨hany, hbegins⟩
      obtain ⟨item, hitem, hfolder⟩ := (Option.any_eq_true _ _).1 hany
      cases item with
      | file content => cases hfolder
      | folder held => exact ⟨above, held, rfl, hitem, hbegins⟩
    · rintro ⟨above', held, habove, hitem, hbegins⟩
      cases habove
      exact ⟨by rw [hitem]; rfl, hbegins⟩

instance (d : Disk) (path : String) (names : List String) : Decidable (d.Covers path names) :=
  decidable_of_iff _ Disk.covers_iff

namespace Store

variable {s : Store} {spec : String}

theorem Kept.without_eq_self (h : s.Kept) (hnil : s.versionsOf spec = []) : s.without spec = s := by
  refine (h.without spec).full.ext h.full rfl fun other => ?_
  rw [versionsOf_without]
  split
  · next heq => rw [← heq, hnil]
  · rfl

/-- A store without versions is empty. -/
theorem Kept.eq_empty_iff (h : s.Kept) {path : String} (hfolder : s.folder = some path) :
    s = inFolder path ↔ ∀ other, s.versionsOf other = [] := by
  constructor
  · rintro rfl other
    rfl
  · intro hall
    exact h.full.ext (kept_empty (some path)).full hfolder fun other => hall other

theorem remove_cases (s : Store) (spec : String) (disk : Disk) :
    (s.remove spec disk).2.1 = s ∨ (s.remove spec disk).2.1 = s.without spec := by
  rw [remove, without]
  cases s.folder with
  | none => exact .inr rfl
  | some path =>
    dsimp only
    split
    · cases disk.removeFolder (Disk.join path spec) with
      | mk answer disk' =>
        cases answer with
        | error fault => exact .inl rfl
        | ok _ => exact .inr rfl
    · exact .inr rfl

/-- The disk is another one only if the path leads to a folder, which is then cleared. -/
theorem disk_remove {path : String} (hfolder : s.folder = some path) (spec : String) (disk : Disk) :
    ((s.remove spec disk).2.2 = disk ∧ ∀ names held, disk.resolve (Disk.join path spec) = .ok names →
        disk.root.at? names ≠ some (.folder held)) ∨
      ∃ names held root, disk.resolve (Disk.join path spec) = .ok names ∧
        disk.root.at? names = some (.folder held) ∧ (s.remove spec disk).2.2 = { disk with root } ∧
        Cleared disk.root names root := by
  rw [remove, hfolder]
  dsimp only
  by_cases hleads : ∀ names held, disk.resolve (Disk.join path spec) = .ok names →
      disk.root.at? names ≠ some (.folder held)
  · obtain ⟨fault, hremove⟩ := Disk.removeFolder_of_not_folder hleads
    refine .inl ⟨?_, hleads⟩
    rw [hremove]
    split <;> rfl
  · push Not at hleads
    obtain ⟨names, held, hresolve, hat⟩ := hleads
    obtain ⟨answer, root, hremove, hcleared⟩ := Disk.removeFolder_cleared hresolve hat
    have hcontains : disk.contains (Disk.join path spec) = true := by
      rw [Disk.contains, Disk.find, hresolve]
      simp only [hat]
    refine .inr ⟨names, held, root, hresolve, hat, ?_, hcleared⟩
    rw [hcontains, hremove]
    cases answer <;> rfl

theorem store_remove_eq (h : s.Kept) (hnil : s.versionsOf spec = []) (disk : Disk) :
    (s.remove spec disk).2.1 = s := by
  rcases s.remove_cases spec disk with hsame | hwithout
  · exact hsame
  · rw [hwithout, h.without_eq_self hnil]

/-- Where no folder is left, or an empty one, a new store stays empty. -/
theorem load_of_lost {path : String} {disk : Disk}
    (h : ∀ names, disk.resolve path = .ok names →
      disk.root.at? names = none ∨ disk.root.at? names = some emptyFolder) :
    (inFolder path).load disk = (.ok 0, inFolder path) := by
  have hfind : (∃ fault, disk.find path = .error fault) ∨ disk.find path = .ok emptyFolder := by
    rw [Disk.find]
    cases hresolve : disk.resolve path with
    | error fault => exact .inl ⟨fault, rfl⟩
    | ok names =>
      dsimp only
      rcases h names hresolve with hnone | hempty
      · rw [hnone]
        exact .inl ⟨_, rfl⟩
      · rw [hempty]
        exact .inr rfl
  rcases hfind with ⟨fault, hfault⟩ | hempty
  · have hmissing : disk.contains path = false := by rw [Disk.contains, hfault]
    exact load_of_missing rfl hmissing
  · have hlist : disk.list path = .ok [] := by
      rw [Disk.list, hempty]
      rfl
    rw [load_of_list rfl hlist]
    rfl

end Store

namespace Storage

variable {d : Disk} {x : Storage} {path : String} {base names : List String}
  {items held : List (String × DiskItem)} {id spec : String} {root : DiskItem}

namespace Placed

/-- The name of a spec that has versions leads to its folder. -/
theorem resolve_stored (h : Placed d path base x items) (hne : x.store.versionsOf spec ≠ []) :
    x.disk.resolve (Disk.join path spec) = .ok (base ++ [spec]) ∧
      x.disk.root.at? (base ++ [spec]) = some (.folder (x.store.filesOf spec)) := by
  obtain ⟨hname, hrefusal⟩ := h.shelved.names spec (h.shelved.stored spec hne)
  have hresolve := Disk.resolve_join h.resolve (Disk.folderFault_eq_none.2 ⟨_, h.at?_base⟩)
    (Store.plainName_of_isName hname)
  rw [hrefusal] at hresolve
  refine ⟨hresolve, ?_⟩
  rw [Disk.at?_append_name h.at?_base]
  rcases h.shelved.lookup_cases spec with hlookup | ⟨-, hnil⟩
  · exact hlookup
  · exact absurd hnil hne

/-- A path that leads elsewhere is no spec that has versions. -/
theorem versionsOf_eq_nil (h : Placed d path base x items)
    (hresolve : x.disk.resolve (Disk.join path id) = .ok names) (hne : names ≠ base ++ [id]) :
    x.store.versionsOf id = [] := by
  by_contra hstored
  obtain ⟨hthere, -⟩ := h.resolve_stored hstored
  rw [hthere] at hresolve
  exact hne (Except.ok.inj hresolve).symm

/-- In the store's folder there are no folders but those of the specs. -/
theorem folder_below (h : Placed d path base x items) {name : String} {more : List String}
    (hat : x.disk.root.at? (base ++ name :: more) = some (.folder held)) :
    more = [] ∧ name ∈ items.map Prod.fst := by
  rw [DiskItem.at?_append, h.at?_base, Option.bind_some, DiskItem.at?] at hat
  obtain ⟨item, hlookup, hitem⟩ := Option.bind_eq_some_iff.1 hat
  have hmem := DiskItem.mem_of_lookup hlookup
  refine ⟨?_, List.mem_map_of_mem hmem⟩
  rw [show item = .folder (x.store.filesOf name) from h.shelved.held _ hmem] at hitem
  cases more with
  | nil => rfl
  | cons file more =>
    rw [DiskItem.at?] at hitem
    obtain ⟨item, hfile, hitem⟩ := Option.bind_eq_some_iff.1 hitem
    obtain ⟨v, -, hv⟩ := List.mem_map.1 (DiskItem.mem_of_lookup hfile)
    cases hv
    cases more <;> cases hitem

/-- The folder of a spec, cleared, leaves the store without the spec. -/
theorem cleared (h : Placed d path base x items) {name : String} (hname : name ∈ items.map Prod.fst)
    (hcleared : Cleared x.disk.root (base ++ [name]) root) :
    ∃ items', Placed d path base ⟨x.store.without name, { x.disk with root }⟩ items' := by
  have hwithout := h.shelved.without name
  obtain ⟨hvalid, hrefusal⟩ := h.shelved.names name hname
  have hnone : (x.store.without name).versionsOf name = [] := by
    rw [Store.versionsOf_without, if_pos rfl]
  have hemptied : Store.Shelved path (x.store.without name) (replace name emptyFolder items) := by
    have hothers : ∀ other, other ≠ name →
        (x.store.without name).versionsOf other = x.store.versionsOf other := fun other hne => by
      rw [Store.versionsOf_without, if_neg (Ne.symm hne)]
    have hput := h.shelved.put hvalid hrefusal hothers fun v hv => by rw [hnone] at hv; cases hv
    rwa [Store.filesOf, hnone] at hput
  rcases hcleared.concat h.at?_base with rfl | rfl
  · exact ⟨_, h.holding hwithout⟩
  · exact ⟨_, h.holding hemptied⟩

end Placed

/-! ## What a new store finds -/

/-- A new store finds the live one after a spec was removed. -/
def FoundAfter (x : Storage) (path id : String) : Prop :=
  ∃ count, (Store.inFolder path).load (x.used (.remove id)).disk = (.ok count, (x.used (.remove id)).store)

/-- No other spec that has versions had its folder in the one removed, and the path of the store
still leads to its folder. -/
def Spares (x : Storage) (path : String) (base : List String) (id : String) : Prop :=
  ∀ spec, spec ≠ id → x.store.versionsOf spec ≠ [] →
    (x.used (.remove id)).disk.resolve path = .ok base ∧
      ¬x.disk.Covers (Disk.join path id) (base ++ [spec])

namespace Sound

variable (h : Sound d x) (hfolder : x.store.folder = some path)
include h hfolder

theorem foundAfter_of_isName (hname : Store.isName id = true) : x.FoundAfter path id := by
  obtain ⟨disk, hremove, hsound⟩ := h.remove_eq hname
  have hused : x.used (.remove id) = ⟨x.store.without id, disk⟩ := by rw [used, hremove]
  rw [FoundAfter, hused]
  exact ⟨_, hsound.load_eq hfolder (.inr rfl)⟩

/-- Nothing was removed. -/
theorem foundAfter_of_disk_eq (hdisk : (x.used (.remove id)).disk = x.disk)
    (hnil : x.store.versionsOf id = []) : x.FoundAfter path id := by
  have hstore : (x.used (.remove id)).store = x.store := Store.store_remove_eq h.kept hnil x.disk
  rw [FoundAfter, hdisk, hstore]
  exact ⟨_, h.load_eq hfolder (.inr rfl)⟩

/-- A new store that finds nothing finds the live one exactly if that has no versions. -/
theorem foundAfter_iff_of_empty (hnil : x.store.versionsOf id = [])
    (hload : (Store.inFolder path).load (x.used (.remove id)).disk = (.ok 0, Store.inFolder path))
    (hlost : (x.used (.remove id)).disk.resolve path = .ok base →
      ∀ spec, x.disk.Covers (Disk.join path id) (base ++ [spec])) :
    x.FoundAfter path id ↔ x.Spares path base id := by
  have hstore : (x.used (.remove id)).store = x.store := Store.store_remove_eq h.kept hnil x.disk
  rw [FoundAfter, hload, hstore]
  constructor
  · rintro ⟨count, hsame⟩ spec - hstored
    exact absurd ((h.kept.eq_empty_iff hfolder).1 (congrArg Prod.snd hsame).symm spec) hstored
  · intro hspares
    refine ⟨0, ?_⟩
    rw [(h.kept.eq_empty_iff hfolder).2 fun spec => ?_]
    by_contra hstored
    have hne : spec ≠ id := by
      rintro rfl
      exact hstored hnil
    obtain ⟨hleads, hcovers⟩ := hspares spec hne hstored
    exact hcovers (hlost hleads spec)

/-- The store's folder is gone or empty. -/
theorem foundAfter_iff_of_above (hplaced : Placed d path base x items)
    (hresolve : x.disk.resolve (Disk.join path id) = .ok names)
    (hat : x.disk.root.at? names = some (.folder held)) (habove : names <+: base)
    (hdisk : (x.used (.remove id)).disk = { x.disk with root }) (hcleared : Cleared x.disk.root names root) :
    x.FoundAfter path id ↔ x.Spares path base id := by
  have hne : names ≠ base ++ [id] := by
    rintro rfl
    have hle := habove.length_le
    rw [List.length_append, List.length_singleton] at hle
    omega
  have hnil := hplaced.versionsOf_eq_nil hresolve hne
  have hload : (Store.inFolder path).load (x.used (.remove id)).disk = (.ok 0, Store.inFolder path) := by
    rw [hdisk]
    refine Store.load_of_lost fun names' hnames' => ?_
    rw [← Disk.resolve_unique hplaced.resolve hnames' rfl]
    exact hcleared.below hat habove
  exact h.foundAfter_iff_of_empty hfolder hnil hload fun _ spec =>
    ⟨names, held, hresolve, hat, habove.trans (List.prefix_append _ _)⟩

/-- The folder of one spec is gone or empty. -/
theorem foundAfter_iff_of_spec (hplaced : Placed d path base x items) {name : String}
    (hresolve : x.disk.resolve (Disk.join path id) = .ok (base ++ [name]))
    (hat : x.disk.root.at? (base ++ [name]) = some (.folder held))
    (hdisk : (x.used (.remove id)).disk = { x.disk with root })
    (hcleared : Cleared x.disk.root (base ++ [name]) root) :
    x.FoundAfter path id ↔ x.Spares path base id := by
  obtain ⟨-, hkey⟩ := hplaced.folder_below hat
  obtain ⟨items', hplaced'⟩ := hplaced.cleared hkey hcleared
  have hcovers : ∀ spec, x.disk.Covers (Disk.join path id) (base ++ [spec]) ↔ name = spec := by
    intro spec
    constructor
    · rintro ⟨above, held', habove, -, hbegins⟩
      rw [hresolve] at habove
      cases habove
      exact (List.singleton_inj.1 (List.append_cancel_left (hbegins.eq_of_length (by simp))))
    · rintro rfl
      exact ⟨_, held, hresolve, hat, List.prefix_rfl⟩
  have hspares : x.Spares path base id ↔ name = id ∨ x.store.versionsOf name = [] := by
    constructor
    · intro hall
      by_contra hnot
      obtain ⟨hne, hstored⟩ := not_or.1 hnot
      exact (hall name hne hstored).2 ((hcovers name).2 rfl)
    · intro hor spec hne hstored
      refine ⟨by rw [hdisk]; exact hplaced'.resolve, fun hcover => ?_⟩
      have hname := (hcovers spec).1 hcover
      rcases hor with heq | hnil
      · exact hne (hname.symm.trans heq)
      · exact hstored (hname ▸ hnil)
  rw [hspares]
  by_cases heq : name = id
  · subst heq
    exact iff_of_true (h.foundAfter_of_isName hfolder (hplaced.shelved.names name hkey).1) (.inl rfl)
  · have hnil := hplaced.versionsOf_eq_nil hresolve fun hsame =>
      heq (List.singleton_inj.1 (List.append_cancel_left hsame))
    have hstore : (x.used (.remove id)).store = x.store := Store.store_remove_eq h.kept hnil x.disk
    have hsound : Sound d ⟨x.store.without name, { x.disk with root }⟩ :=
      ⟨h.kept.without name, fun other hother =>
        ⟨base, items', Option.some.inj (hfolder.symm.trans hother) ▸ hplaced'⟩⟩
    have hload := hsound.load_eq (s := Store.inFolder path) hfolder (.inr rfl)
    rw [or_iff_right heq, FoundAfter, hdisk, hstore, hload]
    constructor
    · rintro ⟨count, hsame⟩
      have hwithout : x.store.without name = x.store := congrArg Prod.snd hsame
      rw [← hwithout, Store.versionsOf_without, if_pos rfl]
    · exact fun hgone => ⟨_, by rw [h.kept.without_eq_self hgone]⟩

/-- The store's folder is as it was, and only the way to it may be gone. -/
theorem foundAfter_iff_of_apart (hplaced : Placed d path base x items)
    (hresolve : x.disk.resolve (Disk.join path id) = .ok names)
    (hat : x.disk.root.at? names = some (.folder held)) (habove : ¬names <+: base)
    (hbelow : ¬base <+: names) (hdisk : (x.used (.remove id)).disk = { x.disk with root })
    (hcleared : Cleared x.disk.root names root) :
    x.FoundAfter path id ↔ x.Spares path base id := by
  have hnil := hplaced.versionsOf_eq_nil hresolve fun heq => hbelow (heq ▸ List.prefix_append _ _)
  have hstore : (x.used (.remove id)).store = x.store := Store.store_remove_eq h.kept hnil x.disk
  have hcovers : ∀ spec, ¬x.disk.Covers (Disk.join path id) (base ++ [spec]) := by
    rintro spec ⟨above, held', habove', -, hbegins⟩
    rw [hresolve] at habove'
    cases habove'
    rcases List.prefix_concat_iff.1 hbegins with heq | hin
    · exact hbelow (heq ▸ List.prefix_append _ _)
    · exact habove hin
  have hsame : root.at? base = some (.folder items) :=
    (hcleared.apart hat habove hbelow).trans hplaced.at?_base
  cases hleads : ({ x.disk with root } : Disk).resolve path with
  | ok names' =>
    obtain rfl := Disk.resolve_unique hplaced.resolve hleads rfl
    have hlist : ({ x.disk with root } : Disk).list path = .ok items := by
      rw [Disk.list, Disk.find, hleads]
      simp only [hsame]
    refine iff_of_true ?_ fun spec _ _ => ⟨by rw [hdisk, hleads], hcovers spec⟩
    rw [FoundAfter, hdisk, hstore, Store.load_of_list rfl hlist, ← hplaced.listing_eq hfolder,
      h.loadAll_eq hfolder (.inr rfl) (List.Perm.refl _)]
    exact ⟨_, rfl⟩
  | error fault =>
    have hload : (Store.inFolder path).load (x.used (.remove id)).disk = (.ok 0, Store.inFolder path) := by
      rw [hdisk]
      refine Store.load_of_lost fun names' hnames' => ?_
      rw [hleads] at hnames'
      cases hnames'
    refine h.foundAfter_iff_of_empty hfolder hnil hload fun hthere => ?_
    rw [hdisk, hleads] at hthere
    cases hthere

theorem foundAfter_iff (hplaced : Placed d path base x items) (id : String) :
    x.FoundAfter path id ↔ x.Spares path base id := by
  rcases Store.disk_remove hfolder id x.disk with ⟨hdisk, hno⟩ |
    ⟨names, held, root, hresolve, hat, hdisk, hcleared⟩
  · have hnil : x.store.versionsOf id = [] := by
      by_contra hstored
      obtain ⟨hthere, hfiles⟩ := hplaced.resolve_stored hstored
      exact hno _ _ hthere hfiles
    refine iff_of_true (h.foundAfter_of_disk_eq hfolder hdisk hnil) fun spec _ _ => ⟨?_, ?_⟩
    · rw [show (x.used (.remove id)).disk = x.disk from hdisk, hplaced.resolve]
    · rintro ⟨above, held, hthere, hfiles, -⟩
      exact hno above held hthere hfiles
  · by_cases habove : names <+: base
    · exact h.foundAfter_iff_of_above hfolder hplaced hresolve hat habove hdisk hcleared
    · by_cases hbelow : base <+: names
      · obtain ⟨rest, rfl⟩ := hbelow
        cases rest with
        | nil =>
          rw [List.append_nil] at habove
          exact absurd List.prefix_rfl habove
        | cons name more =>
          obtain ⟨rfl, -⟩ := hplaced.folder_below hat
          exact h.foundAfter_iff_of_spec hfolder hplaced hresolve hat hdisk hcleared
      · exact h.foundAfter_iff_of_apart hfolder hplaced hresolve hat habove hbelow hdisk hcleared

end Sound

/-- Removing a spec by any text leaves all others their versions in memory.  A new store finds the
live one exactly if the folder removed had no other spec in it and was not on the way to the
store's folder; a spec that is removed by its name spares the others. -/
theorem remove_spares_iff {d : Disk} {path : String} (hfresh : d.list path = .ok []) {uses : List Use}
    (hallows : (begun (some path) d).AllowsAll uses) (id : String) :
    let x := (begun (some path) d).usedAll uses
    (∀ spec, spec ≠ id → (x.used (.remove id)).store.versionsOf spec = x.store.versionsOf spec) ∧
    (∃ base, d.resolve path = .ok base ∧ (x.FoundAfter path id ↔ x.Spares path base id)) ∧
    (Store.isName id = true → x.FoundAfter path id) := by
  intro x
  have hbegun : Sound d (begun (some path) d) := sound_begun fun _ hpath => Option.some.inj hpath ▸ hfresh
  have hsound : Sound d x := hbegun.usedAll hallows
  have hfolder : x.store.folder = some path := hbegun.folder_usedAll hallows
  obtain ⟨base, items, hplaced⟩ := hsound.placed path hfolder
  refine ⟨fun spec hne => ?_, ⟨base, hplaced.resolved, hsound.foundAfter_iff hfolder hplaced id⟩,
    fun hname => hsound.foundAfter_of_isName hfolder hname⟩
  show (x.store.remove id x.disk).2.1.versionsOf spec = _
  rcases x.store.remove_cases id x.disk with hsame | hwithout
  · rw [hsame]
  · rw [hwithout, Store.versionsOf_without, if_neg (Ne.symm hne)]

/-- Ways to say the folder of a spec, the folder of the store, and the one above it. -/
def strayNames : List String := ["a/", "./a", "../specs/a", "/specs/a", "", ".", "/specs", "..", "/"]

/-- Only the name itself does not leave a new store without the version. -/
theorem remove_spares_iff_strayNames :
    let start := begun (some "specs") bareDisk
    let x := start.usedAll [.save "a" fetchJob ⟨0, 0⟩]
    start.AllowsAll [.save "a" fetchJob ⟨0, 0⟩] ∧ x.FoundAfter "specs" "a" ∧
      ∀ id ∈ strayNames,
        ((x.used (.remove id)).store.versionsOf "a").map SpecVersion.version = [1] ∧
          ¬x.FoundAfter "specs" id := by
  intro start x
  have hread : (⟨"a", 1, ⟨0, 0⟩, Snapshot.capture fetchJob⟩ : SpecVersion).Rereadable := by
    rw [SpecVersion.Rereadable, SpecVersion.ofText?, SpecVersion.text, Json.readAs?, Json.readWithin?_pretty]
    decide +kernel
  have hallows : start.AllowsAll [.save "a" fetchJob ⟨0, 0⟩] := ⟨fun _ _ => hread, trivial⟩
  have hspares := remove_spares_iff (show bareDisk.list "specs" = .ok [] from rfl) hallows
  have hversions : (x.store.versionsOf "a").map SpecVersion.version = [1] := by decide +kernel
  have hstored : x.store.versionsOf "a" ≠ [] := fun hnil => by
    rw [hnil] at hversions
    cases hversions
  have hother : ∀ id ∈ strayNames, "a" ≠ id := by decide
  have hcovers : ∀ id ∈ strayNames, x.disk.Covers (Disk.join "specs" id) ["specs", "a"] := by
    decide +kernel
  refine ⟨hallows, (hspares "a").2.2 (by decide), fun id hid => ?_⟩
  obtain ⟨hmemory, ⟨base, hbase, hfound⟩, -⟩ := hspares id
  cases (show bareDisk.resolve "specs" = .ok ["specs"] from rfl).symm.trans hbase
  refine ⟨by rw [hmemory "a" (hother id hid), hversions], fun hafter => ?_⟩
  exact (hfound.1 hafter "a" (hother id hid) hstored).2 (hcovers id hid)

end Storage
end JobPipeline
