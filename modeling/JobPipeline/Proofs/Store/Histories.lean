import JobPipeline.Proofs.Json.Printing
import JobPipeline.Proofs.Store.Shelves

/-
What becomes of a store in any course of uses.

No version is lost: whatever is saved, removed or loaded, a version stays under its number
until its own spec is removed, and a new store that loads the folder is the same store.
The disk is known only by what it held before the store and by what the store has put into
its folder, so the two are all that the invariant speaks of.
-/
namespace JobPipeline

open DiskItem (emptyFolder replace)

/-- A store, and the disk that it may lie on. -/
structure Storage where
  store : Store
  disk : Disk

/-- A use of a store with its arguments.  What loading reads, it is given. -/
inductive Use where
  | save (spec : String) (job : Job) (now : Timestamp)
  | remove (spec : String)
  | load (readings : List (Except DiskFault String))

namespace Store

/-- The version that is saved next. -/
def next (s : Store) (spec : String) (job : Job) (now : Timestamp) : SpecVersion :=
  ⟨spec, s.nextVersion spec, now, Snapshot.capture job⟩

/-- The disk refuses the names or the paths that a version is to be written to, whatever
lies there. -/
def Refused (s : Store) (v : SpecVersion) (fault : DiskFault) : Prop :=
  ∃ path, s.folder = some path ∧
    (Disk.refusal? path v.spec = some fault ∨
      Disk.refusal? (Disk.join path v.spec) v.fileName = some fault)

section

variable {s : Store} {spec : String} {job : Job} {now : Timestamp} {disk disk' : Disk}

theorem save_of_fault (hname : isName spec = true) {fault : DiskFault}
    (h : s.writeVersion (s.next spec job now) disk = (.error fault, disk')) :
    s.save spec job now disk = (.error (.inputOutput fault), s, disk') := by
  rw [next] at h
  rw [save, hname]
  simp only [Bool.not_true, Bool.false_eq_true, if_false, h]

theorem save_of_written (hname : isName spec = true)
    (h : s.writeVersion (s.next spec job now) disk = (.ok (), disk')) :
    s.save spec job now disk = (.ok (s.nextVersion spec), s.push (s.next spec job now), disk') := by
  rw [next] at h ⊢
  rw [save, hname]
  simp only [Bool.not_true, Bool.false_eq_true, if_false, h]

end

end Store

namespace Storage

variable {d : Disk} {x : Storage}

/-- A store that has just been made, at a place on a disk or in memory. -/
def begun (place : Option String) (d : Disk) : Storage := ⟨⟨Dict.empty, place⟩, d⟩

/-- What reading the files of the store gives, in the order in which the disk lists them. -/
def listing (x : Storage) : List (Except DiskFault String) :=
  match x.store.folder with
  | none => []
  | some path =>
    match x.disk.list path with
    | .error _ => []
    | .ok items => items.flatMap fun i => Store.readingsOf i.2

/-- What a use leaves, whether it succeeds or fails. -/
def used (x : Storage) : Use → Storage
  | .save spec job now =>
    let (_, store, disk) := x.store.save spec job now x.disk
    ⟨store, disk⟩
  | .remove spec =>
    let (_, store, disk) := x.store.remove spec x.disk
    ⟨store, disk⟩
  | .load readings =>
    match x.store.folder with
    | none => x
    | some _ => ⟨(x.store.loadAll readings).2, x.disk⟩

def usedAll (x : Storage) (uses : List Use) : Storage := uses.foldl used x

/-- Files are read back as they were written, each once and in any order, and what is
removed has the name of a spec. -/
def Allows (x : Storage) : Use → Prop
  | .save spec job now =>
    x.store.folder ≠ none → Store.isName spec = true → (x.store.next spec job now).Rereadable
  | .remove spec => Store.isName spec = true
  | .load readings => readings.Perm x.listing

def AllowsAll (x : Storage) : List Use → Prop
  | [] => True
  | use :: uses => x.Allows use ∧ (x.used use).AllowsAll uses

/-! ## The disk of a store -/

/-- The store lies at a path, in a folder that was empty on the disk `d`, and nothing else
has changed there since. -/
structure Placed (d : Disk) (path : String) (base : List String) (x : Storage)
    (items : List (String × DiskItem)) : Prop where
  resolved : d.resolve path = .ok base
  empty : d.root.at? base = some (.folder [])
  disk : x.disk = d.holding base items
  shelved : Store.Shelved path x.store items

namespace Placed

variable {path : String} {base : List String} {items : List (String × DiskItem)}

theorem at?_base (h : Placed d path base x items) : x.disk.root.at? base = some (.folder items) := by
  rw [h.disk]
  exact Disk.at?_holding h.empty

theorem resolve (h : Placed d path base x items) : x.disk.resolve path = .ok base := by
  rw [h.disk]
  exact Disk.resolve_holding h.resolved h.empty items

theorem list (h : Placed d path base x items) : x.disk.list path = .ok items := by
  rw [Disk.list, Disk.find, h.resolve]
  simp only [h.at?_base]

/-- Other items in the folder, and the store that they are the files of. -/
theorem holding (h : Placed d path base x items) {store : Store} {items' : List (String × DiskItem)}
    (hshelved : Store.Shelved path store items') :
    Placed d path base ⟨store, x.disk.holding base items'⟩ items' := by
  refine ⟨h.resolved, h.empty, ?_, hshelved⟩
  rw [h.disk]
  exact Disk.holding_holding h.empty items'

theorem listing_eq (h : Placed d path base x items) (hfolder : x.store.folder = some path) :
    x.listing = items.flatMap fun i => Store.readingsOf i.2 := by
  rw [listing, hfolder]
  simp only [h.list]

theorem load_eq (h : Placed d path base x items) {s s' : Store} (hfolder : s.folder = some path)
    {count : Nat} (hload : s.loadAll (items.flatMap fun i => Store.readingsOf i.2) = (.ok count, s')) :
    s.load x.disk = (.ok count, s') := by
  rw [Store.load_of_list hfolder h.list, hload]
  rfl

/-- Writing a version is refused for its names alone. -/
theorem writeVersion_cases (h : Placed d path base x items) (hkept : x.store.Kept)
    (hfolder : x.store.folder = some path) {v : SpecVersion} (hname : Store.isName v.spec = true)
    (hv : v.version = x.store.nextVersion v.spec) (hread : v.Rereadable) :
    (∃ fault disk items', x.store.Refused v fault ∧ x.store.writeVersion v x.disk = (.error fault, disk) ∧
      Placed d path base ⟨x.store, disk⟩ items') ∨
    ∃ disk items', x.store.writeVersion v x.disk = (.ok (), disk) ∧
      Placed d path base ⟨x.store.push v, disk⟩ items' := by
  have hspec := Store.plainName_of_isName hname
  have hfolders := Disk.makeFolders_join h.resolve h.at?_base hspec fun content hfile => by
    rcases h.shelved.lookup_cases v.spec with hlookup | ⟨hlookup, -⟩
    · rw [hlookup] at hfile
      cases hfile
    · rw [hlookup] at hfile
      cases hfile
  rw [Store.writeVersion, hfolder]
  dsimp only
  cases hrefusal : Disk.refusal? path v.spec with
  | some fault =>
    rw [hfolders, hrefusal]
    exact .inl ⟨fault, x.disk, items, ⟨path, hfolder, .inl hrefusal⟩, rfl, h⟩
  | none =>
    rw [hfolders, hrefusal]
    dsimp only
    rw [h.shelved.getD_lookup]
    -- The folder of the spec is there now, whether it was before or not.
    have hopened := h.holding (h.shelved.put hname hrefusal (fun _ _ => rfl) (h.shelved.rereadable v.spec))
    have hresolve := Disk.resolve_join hopened.resolve (Disk.folderFault_eq_none.2 ⟨_, hopened.at?_base⟩) hspec
    rw [hrefusal] at hresolve
    have hat := (Disk.at?_append_name hopened.at?_base v.spec).trans
      (DiskItem.lookup_replace_self v.spec (.folder (x.store.filesOf v.spec)) items)
    have hfresh := hkept.lookup_filesOf hv
    have hwrite := Disk.write_join hresolve hat v.plainName_fileName
      (fun held hheld => by rw [hfresh] at hheld; cases hheld) v.text
    rw [DiskItem.replace_of_lookup_none hfresh, ← Store.filesOf_push, Disk.holding_append hopened.at?_base,
      DiskItem.replace_replace, Disk.holding_holding h.at?_base] at hwrite
    rw [hwrite]
    cases hfile : Disk.refusal? (Disk.join path v.spec) v.fileName with
    | some fault => exact .inl ⟨fault, _, _, ⟨path, hfolder, .inr hfile⟩, rfl, hopened⟩
    | none => exact .inr ⟨_, _, rfl, h.holding (h.shelved.push hname hrefusal hread)⟩

theorem remove_eq (h : Placed d path base x items) (hfolder : x.store.folder = some path) {spec : String}
    (hname : Store.isName spec = true) :
    ∃ disk items', x.store.remove spec x.disk =
        (.ok (x.store.specs.find? spec), x.store.without spec, disk) ∧
      Placed d path base ⟨x.store.without spec, disk⟩ items' := by
  have hspec := Store.plainName_of_isName hname
  have hfind := Disk.find_join h.resolve h.at?_base hspec
  have hstore : (⟨x.store.specs.erase spec, some path⟩ : Store) = x.store.without spec := by
    rw [Store.without, hfolder]
  rw [Store.remove, hfolder]
  dsimp only
  rw [hstore, Disk.contains, hfind]
  rcases h.shelved.lookup_cases spec with hlookup | ⟨hlookup, hnil⟩
  · have hrefusal := (h.shelved.names spec (List.mem_map_of_mem (DiskItem.mem_of_lookup hlookup))).2
    rw [hrefusal, hlookup]
    have hstays : (x.disk.holding base (replace spec emptyFolder items)).resolve path = .ok base := by
      rw [h.disk, Disk.holding_holding h.empty]
      exact Disk.resolve_holding h.resolved h.empty _
    simp only [if_true, Disk.removeFolder_join h.resolve h.at?_base hspec hrefusal hlookup hstays]
    exact ⟨_, _, rfl, h.holding (h.shelved.without spec)⟩
  · -- Nothing is there to be removed, on the disk or in memory.
    have hsame : ∀ other, (x.store.without spec).versionsOf other = x.store.versionsOf other := by
      intro other
      rw [Store.versionsOf_without]
      split
      · next heq => rw [← heq, hnil]
      · rfl
    have hplaced : Placed d path base ⟨x.store.without spec, x.disk⟩ items :=
      ⟨h.resolved, h.empty, h.disk, h.shelved.congr hsame⟩
    rw [hlookup]
    cases Disk.refusal? path spec with
    | some fault => exact ⟨_, _, rfl, hplaced⟩
    | none => exact ⟨_, _, rfl, hplaced⟩

end Placed

/-! ## One use -/

/-- What every storage comes to be that begins empty on the disk `d`. -/
structure Sound (d : Disk) (x : Storage) : Prop where
  kept : x.store.Kept
  placed : ∀ path, x.store.folder = some path → ∃ base items, Placed d path base x items

theorem sound_begun {place : Option String} (hfresh : ∀ path, place = some path → d.list path = .ok []) :
    Sound d (begun place d) := by
  refine ⟨Store.kept_empty place, fun path hpath => ?_⟩
  obtain ⟨base, hresolve, hat⟩ := Disk.resolve_of_list (hfresh path hpath)
  exact ⟨base, [], hresolve, hat, (Disk.holding_self hat).symm, .empty path place⟩

namespace Sound

theorem save_cases (h : Sound d x) {spec : String} (hname : Store.isName spec = true) {job : Job}
    {now : Timestamp} (hallows : x.Allows (.save spec job now)) :
    (∃ fault disk, x.store.Refused (x.store.next spec job now) fault ∧
      x.store.save spec job now x.disk = (.error (.inputOutput fault), x.store, disk) ∧
      Sound d ⟨x.store, disk⟩) ∨
    ∃ disk, x.store.save spec job now x.disk =
        (.ok (x.store.nextVersion spec), x.store.push (x.store.next spec job now), disk) ∧
      Sound d ⟨x.store.push (x.store.next spec job now), disk⟩ := by
  have hpush : (x.store.push (x.store.next spec job now)).Kept := h.kept.push rfl
  cases hfolder : x.store.folder with
  | none =>
    have hwrite : x.store.writeVersion (x.store.next spec job now) x.disk = (.ok (), x.disk) := by
      rw [Store.writeVersion, hfolder]
    exact .inr ⟨x.disk, Store.save_of_written hname hwrite, hpush, fun path hpath =>
      absurd (hfolder.symm.trans hpath) (Option.some_ne_none path).symm⟩
  | some path =>
    have hread := hallows (by rw [hfolder]; exact Option.some_ne_none path) hname
    obtain ⟨base, items, hplaced⟩ := h.placed path hfolder
    have hpath : ∀ other, x.store.folder = some other → path = other :=
      fun other hother => Option.some.inj (hfolder.symm.trans hother)
    rcases hplaced.writeVersion_cases (v := x.store.next spec job now) h.kept hfolder hname rfl hread with
      ⟨fault, disk, items', hrefused, hwrite, hplaced'⟩ | ⟨disk, items', hwrite, hplaced'⟩
    · have hsound : Sound d ⟨x.store, disk⟩ :=
        ⟨h.kept, fun other hother => ⟨base, items', hpath other hother ▸ hplaced'⟩⟩
      exact .inl ⟨fault, disk, hrefused, Store.save_of_fault hname hwrite, hsound⟩
    · have hsound : Sound d ⟨x.store.push (x.store.next spec job now), disk⟩ :=
        ⟨hpush, fun other hother => ⟨base, items', hpath other hother ▸ hplaced'⟩⟩
      exact .inr ⟨disk, Store.save_of_written hname hwrite, hsound⟩

theorem remove_eq (h : Sound d x) {spec : String} (hname : Store.isName spec = true) :
    ∃ disk, x.store.remove spec x.disk = (.ok (x.store.specs.find? spec), x.store.without spec, disk) ∧
      Sound d ⟨x.store.without spec, disk⟩ := by
  have hwithout : (x.store.without spec).Kept := h.kept.without spec
  cases hfolder : x.store.folder with
  | none =>
    refine ⟨x.disk, ?_, hwithout, fun path hpath =>
      absurd (hfolder.symm.trans hpath) (Option.some_ne_none path).symm⟩
    rw [Store.remove, Store.without, hfolder]
  | some path =>
    obtain ⟨base, items, hplaced⟩ := h.placed path hfolder
    obtain ⟨disk, items', hremove, hplaced'⟩ := hplaced.remove_eq hfolder hname
    refine ⟨disk, hremove, hwithout, fun other hother => ⟨base, items', ?_⟩⟩
    exact Option.some.inj (hfolder.symm.trans hother) ▸ hplaced'

/-- Loading leaves the store as it is, and makes it of an empty one. -/
theorem loadAll_eq (h : Sound d x) {path : String} (hfolder : x.store.folder = some path)
    {s : Store} (hs : s = x.store ∨ s = Store.inFolder path) {readings : List (Except DiskFault String)}
    (hreadings : readings.Perm x.listing) : s.loadAll readings = (.ok readings.length, x.store) := by
  obtain ⟨base, items, hplaced⟩ := h.placed path hfolder
  rw [hplaced.listing_eq hfolder] at hreadings
  refine hplaced.shelved.loadAll_eq h.kept (hs.imp_right ?_) hreadings
  rintro rfl
  rw [hfolder]
  rfl

theorem load_eq (h : Sound d x) {path : String} (hfolder : x.store.folder = some path)
    {s : Store} (hs : s = x.store ∨ s = Store.inFolder path) :
    s.load x.disk = (.ok x.listing.length, x.store) := by
  obtain ⟨base, items, hplaced⟩ := h.placed path hfolder
  have hload := h.loadAll_eq hfolder hs (List.Perm.refl _)
  rw [hplaced.listing_eq hfolder] at hload ⊢
  refine hplaced.load_eq ?_ hload
  rcases hs with rfl | rfl
  · exact hfolder
  · rfl

/-- All that a use can do: nothing to the store, one version more, or one spec less. -/
theorem used_cases (h : Sound d x) {use : Use} (hallows : x.Allows use) :
    Sound d (x.used use) ∧
      ((x.used use).store = x.store ∨
        (∃ v, (x.used use).store = x.store.push v) ∨
        ∃ spec, use = .remove spec ∧ (x.used use).store = x.store.without spec) := by
  cases use with
  | save spec job now =>
    rw [used]
    cases hname : Store.isName spec with
    | false =>
      rw [Store.save, hname]
      exact ⟨h, .inl rfl⟩
    | true =>
      rcases h.save_cases hname hallows with ⟨fault, disk, -, hsave, hsound⟩ | ⟨disk, hsave, hsound⟩
      · rw [hsave]
        exact ⟨hsound, .inl rfl⟩
      · rw [hsave]
        exact ⟨hsound, .inr (.inl ⟨_, rfl⟩)⟩
  | remove spec =>
    obtain ⟨disk, hremove, hsound⟩ := h.remove_eq hallows
    rw [used, hremove]
    exact ⟨hsound, .inr (.inr ⟨spec, rfl, rfl⟩)⟩
  | load readings =>
    have hused : x.used (.load readings) = x := by
      rw [used]
      cases hfolder : x.store.folder with
      | none => rfl
      | some path => rw [h.loadAll_eq hfolder (.inl rfl) hallows]
    rw [hused]
    exact ⟨h, .inl rfl⟩

/-- A version stays unless its spec is removed. -/
theorem mem_used (h : Sound d x) {use : Use} (hallows : x.Allows use) {spec : String}
    (hother : use ≠ .remove spec) {v : SpecVersion} (hv : v ∈ x.store.versionsOf spec) :
    v ∈ (x.used use).store.versionsOf spec := by
  obtain ⟨-, hsame | ⟨w, hpush⟩ | ⟨removed, huse, hwithout⟩⟩ := h.used_cases hallows
  · rwa [hsame]
  · rw [hpush, Store.versionsOf_push]
    split
    · exact List.mem_append_left _ hv
    · exact hv
  · have hne : removed ≠ spec := by
      rintro rfl
      exact hother huse
    rwa [hwithout, Store.versionsOf_without, if_neg hne]

theorem folder_used (h : Sound d x) {use : Use} (hallows : x.Allows use) :
    (x.used use).store.folder = x.store.folder := by
  obtain ⟨-, hsame | ⟨w, hpush⟩ | ⟨removed, -, hwithout⟩⟩ := h.used_cases hallows
  · rw [hsame]
  · rw [hpush, Store.push]
  · rw [hwithout, Store.without]

/-! ## Any number of uses -/

theorem usedAll {x : Storage} (h : Sound d x) {uses : List Use} (hallows : x.AllowsAll uses) :
    Sound d (x.usedAll uses) := by
  induction uses generalizing x with
  | nil => exact h
  | cons use uses ih => exact ih (h.used_cases hallows.1).1 hallows.2

theorem folder_usedAll {x : Storage} (h : Sound d x) {uses : List Use} (hallows : x.AllowsAll uses) :
    (x.usedAll uses).store.folder = x.store.folder := by
  induction uses generalizing x with
  | nil => rfl
  | cons use uses ih =>
    exact (ih (h.used_cases hallows.1).1 hallows.2).trans (h.folder_used hallows.1)

theorem mem_usedAll {x : Storage} (h : Sound d x) {uses : List Use} (hallows : x.AllowsAll uses)
    {spec : String} (hothers : .remove spec ∉ uses) {v : SpecVersion}
    (hv : v ∈ x.store.versionsOf spec) : v ∈ (x.usedAll uses).store.versionsOf spec := by
  induction uses generalizing x with
  | nil => exact hv
  | cons use uses ih =>
    obtain ⟨hne, hrest⟩ := not_or.1 (mt List.mem_cons.2 hothers)
    refine ih (h.used_cases hallows.1).1 hallows.2 hrest ?_
    exact h.mem_used hallows.1 (Ne.symm hne) hv

/-- A version is found under its number until its spec is removed. -/
theorem get?_usedAll {x : Storage} (h : Sound d x) {uses : List Use} (hallows : x.AllowsAll uses)
    {spec : String} (hothers : .remove spec ∉ uses) {v : SpecVersion}
    (hv : v ∈ x.store.versionsOf spec) : (x.usedAll uses).store.get? spec v.version = some v :=
  (h.usedAll hallows).kept.get?_eq (h.mem_usedAll hallows hothers hv)

end Sound

/-- After any uses the versions of every spec go up, a name that is refused changes
nothing, a version that is saved has the number after the latest and stays under it until
its spec is removed, and loading finds the store that is there, from an empty store as well. -/
theorem versions_persist {d : Disk} {place : Option String}
    (hfresh : ∀ path, place = some path → d.list path = .ok []) {uses : List Use}
    (hallows : (begun place d).AllowsAll uses) :
    let x := (begun place d).usedAll uses
    (∀ spec, Ascending (x.store.versionsOf spec)) ∧
    (∀ spec job now, Store.isName spec = false →
      x.store.save spec job now x.disk = (.error (.invalidIdentifier spec), x.store, x.disk)) ∧
    (∀ spec job now, Store.isName spec = true → job.graph.Worked → x.Allows (.save spec job now) →
      (∃ fault disk, x.store.Refused (x.store.next spec job now) fault ∧
        x.store.save spec job now x.disk = (.error (.inputOutput fault), x.store, disk)) ∨
      ∃ n, (x.store.save spec job now x.disk).1 = .ok n ∧
        (x.store.contains spec = false → n = 1) ∧
        (x.store.contains spec = true → ∃ v, x.store.latest? spec = some v ∧ n = v.version + 1) ∧
        ∀ later, (x.used (.save spec job now)).AllowsAll later → .remove spec ∉ later →
          ∃ v job', ((x.used (.save spec job now)).usedAll later).store.get? spec n = some v ∧
            v.snapshot.restore = .ok job' ∧ job'.compile = job.compile) ∧
    ∀ path, place = some path → ∀ s, s = x.store ∨ s = Store.inFolder path →
      s.load x.disk = (.ok x.listing.length, x.store) ∧
      ∀ readings, readings.Perm x.listing → s.loadAll readings = (.ok readings.length, x.store) := by
  intro x
  have hsound : Sound d x := (sound_begun hfresh).usedAll hallows
  refine ⟨hsound.kept.ascending, fun spec job now hname => ?_, fun spec job now hname hworked hsave => ?_,
    fun path hplace s hs => ?_⟩
  · rw [Store.save, hname]
    rfl
  · have hnext := hsound.kept.nextVersion_eq spec
    rcases hsound.save_cases hname hsave with ⟨fault, disk, hrefused, heq, -⟩ | ⟨disk, heq, hsound'⟩
    · exact .inl ⟨fault, disk, hrefused, heq⟩
    refine .inr ⟨x.store.nextVersion spec, by rw [heq], hnext.1, hnext.2, fun later hlater hothers => ?_⟩
    have hused : x.used (.save spec job now) =
        ⟨x.store.push (x.store.next spec job now), disk⟩ := by rw [used, heq]
    rw [hused] at hlater ⊢
    refine ⟨x.store.next spec job now, { job with graph := job.graph.resetAll }, ?_, ?_, ?_⟩
    · exact hsound'.get?_usedAll hlater hothers (Store.mem_push x.store (x.store.next spec job now))
    · exact Snapshot.restore_capture hworked.sound
    · exact TaskGraph.compile_of_form rfl (TaskGraph.form_resetAll job.graph)
  · have hfolder : x.store.folder = some path :=
      ((sound_begun hfresh).folder_usedAll hallows).trans hplace
    exact ⟨hsound.load_eq hfolder hs, fun readings hreadings => hsound.loadAll_eq hfolder hs hreadings⟩

/-- A disk with one empty folder. -/
def bareDisk : Disk := ⟨.folder [("specs", .folder [])], []⟩

def fetchJob : Job :=
  ⟨JobConfig.ofType .cron, TaskGraph.empty.afterAll [.addNamed .http "fetch" .origin none]⟩

theorem versions_persist_hyphens :
    let start := begun (some "specs") bareDisk
    let x := start.usedAll [.save "a-b" fetchJob ⟨0, 0⟩]
    start.AllowsAll [.save "a-b" fetchJob ⟨0, 0⟩] ∧ x.Allows (.save "a_b" fetchJob ⟨0, 0⟩) ∧
      (x.store.save "a_b" fetchJob ⟨0, 0⟩ x.disk).1 = .ok 1 ∧
      x.store.contains "a-b" = true ∧
      (∃ v job', ((x.used (.save "a_b" fetchJob ⟨0, 0⟩)).usedAll [.remove "a-b"]).store.get? "a_b" 1 =
          some v ∧ v.snapshot.restore = .ok job' ∧ job'.compile = fetchJob.compile) ∧
      (Store.inFolder "specs").load x.disk = (.ok x.listing.length, x.store) := by
  intro start x
  have hread : ∀ spec ∈ ["a-b", "a_b"],
      (⟨spec, 1, ⟨0, 0⟩, Snapshot.capture fetchJob⟩ : SpecVersion).Rereadable := by
    intro spec hspec
    rw [SpecVersion.Rereadable, SpecVersion.ofText?, SpecVersion.text, Json.readAs?, Json.readWithin?_pretty]
    revert spec
    decide +kernel
  have hfresh : ∀ path, some "specs" = some path → bareDisk.list path = .ok [] := by
    rintro path ⟨⟩
    rfl
  have hallows : start.AllowsAll [.save "a-b" fetchJob ⟨0, 0⟩] :=
    ⟨fun _ _ => hread "a-b" List.mem_cons_self, trivial⟩
  have hnext : x.store.nextVersion "a_b" = 1 := by decide +kernel
  have hsave : x.Allows (.save "a_b" fetchJob ⟨0, 0⟩) := by
    intro _ _
    rw [Store.next, hnext]
    exact hread "a_b" (List.mem_cons_of_mem _ List.mem_cons_self)
  have hsaved : (x.store.save "a_b" fetchJob ⟨0, 0⟩ x.disk).1 = .ok 1 := by decide +kernel
  have hremove : Store.isName "a-b" = true := by decide +kernel
  have hothers : .remove "a_b" ∉ [Use.remove "a-b"] := by
    rw [List.mem_singleton]
    exact fun heq => absurd (Use.remove.inj heq) (by decide)
  obtain ⟨-, -, hpersist, hload⟩ := versions_persist hfresh hallows
  rcases hpersist "a_b" fetchJob ⟨0, 0⟩ (by decide) (TaskGraph.Worked.empty.afterAll _) hsave with
    ⟨fault, disk, -, hfault⟩ | ⟨n, hn, -, -, hkept⟩
  · exact absurd (hsaved.symm.trans (congrArg Prod.fst hfault)) nofun
  · cases hn.symm.trans hsaved
    exact ⟨hallows, hsave, hsaved, by decide +kernel, hkept [.remove "a-b"] ⟨hremove, trivial⟩ hothers,
      (hload "specs" rfl _ (.inr rfl)).1⟩

end Storage
end JobPipeline
