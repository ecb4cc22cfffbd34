import JobPipeline.Proofs.Disk.Paths
import JobPipeline.Proofs.Graph.WellFormed
import JobPipeline.Proofs.Number.Digits
import JobPipeline.Proofs.Snapshot.RoundTrip
import JobPipeline.Proofs.Store.Arranging

/-
What a store holds, and what lies in its folder.

A store in a folder has its versions twice, in memory and in the files, and different code
writes the two.  They are held together by one invariant: the folder has a folder for each
spec, and in it a file for each version, in their order, and nothing else.  Putting a
version and dropping a spec keep it, each with the same change on both sides.  Loading, from
files in any order, finds nothing but what the store has.
-/
namespace JobPipeline

open DiskItem (emptyFolder replace)

namespace SpecVersion

/-- The version comes back as it was when its file is read. -/
def Rereadable (v : SpecVersion) : Prop := ofText? v.text = some v

theorem fileName_inj {v w : SpecVersion} (h : v.fileName = w.fileName) : v.version = w.version := by
  have hchars : ("v" ++ toString v.version).toList ++ ".json".toList =
      ("v" ++ toString w.version).toList ++ ".json".toList := by
    rw [← String.toList_append, ← String.toList_append]
    exact congrArg String.toList h
  exact toString_inj_of_append (String.toList_inj.1 (List.append_cancel_right hchars))

theorem toList_fileName (v : SpecVersion) :
    v.fileName.toList = ('v' :: (toString v.version).toList) ++ '.' :: "json".toList := by
  rw [fileName, String.toList_append, String.toList_append]
  rfl

theorem not_mem_toString {c : Char} (hc : c.isDigit = false) (n : Nat) : c ∉ (toString n).toList := by
  intro hmem
  rw [Numeral.toList_toString] at hmem
  have hdigit := List.all_eq_true.1 (Numeral.all_isDigit_toDigits n) c hmem
  rw [hc] at hdigit
  cases hdigit

theorem plainName_fileName (v : SpecVersion) : Disk.PlainName v.fileName := by
  refine ⟨?_, 'v', (toString v.version).toList ++ '.' :: "json".toList, toList_fileName v, by decide⟩
  rw [toList_fileName, List.mem_append, List.mem_cons]
  rintro ((heq | hmem) | hmem)
  · cases heq
  · exact not_mem_toString (by decide) _ hmem
  · exact absurd hmem (by decide)

theorem isVersionFile_fileName (v : SpecVersion) : Store.isVersionFile v.fileName = true := by
  have hstem : '.' ∉ 'v' :: (toString v.version).toList := by
    rw [List.mem_cons]
    rintro (heq | hmem)
    · cases heq
    · exact not_mem_toString (by decide) _ hmem
  rw [Store.isVersionFile, toList_fileName, Text.splitOn_append hstem,
    Text.splitOn_of_not_mem (by decide)]
  rfl

end SpecVersion

namespace Store

theorem plainName_of_isName {spec : String} (h : isName spec = true) : Disk.PlainName spec := by
  have hword := Source.isWord_of_isValid h
  rw [String.toList_ofList] at hword
  have hrest : ∀ c ∈ spec.toList, c = '-' ∨ Identifier.isRest c = true := by
    intro c hc
    have hd := Field.isRest_of_isWord hword _ (List.mem_map_of_mem hc)
    split at hd
    · next heq => exact .inl heq
    · exact .inr hd
  refine ⟨fun hslash => ?_, ?_⟩
  · rcases hrest _ hslash with heq | hclass
    · cases heq
    · exact absurd hclass (by decide)
  · cases hspec : spec.toList with
    | nil =>
      rw [hspec] at hword
      cases hword
    | cons c cs =>
      refine ⟨c, cs, rfl, ?_⟩
      rintro rfl
      rcases hrest '.' (by rw [hspec]; exact List.mem_cons_self) with heq | hclass
      · cases heq
      · exact absurd hclass (by decide)

/-! ## In memory -/

/-- What a store keeps to, wherever it lies. -/
structure Kept (s : Store) : Prop where
  full : s.Full
  ascending : ∀ spec, Ascending (s.versionsOf spec)
  filed : ∀ spec, ∀ v ∈ s.versionsOf spec, v.spec = spec

variable {s : Store} {spec : String}

theorem kept_empty (place : Option String) : Kept ⟨Dict.empty, place⟩ :=
  ⟨fun _ h => (by cases h), fun _ => .nil, fun _ _ h => (by cases h)⟩

theorem Kept.lt_nextVersion (h : s.Kept) {v : SpecVersion} (hv : v ∈ s.versionsOf spec) :
    v.version < s.nextVersion spec := by
  obtain ⟨front, last, hversions⟩ := List.eq_nil_or_concat (s.versionsOf spec) |>.resolve_left
    (List.ne_nil_of_mem hv)
  rw [List.concat_eq_append] at hversions
  have hlatest : s.latest? spec = some last := by rw [latest?, hversions, List.getLast?_concat]
  have hascending := h.ascending spec
  rw [hversions, Ascending, List.pairwise_append] at hascending
  rw [nextVersion, hlatest]
  rw [hversions] at hv
  rcases List.mem_append.1 hv with hold | hlast
  · exact Nat.lt_succ_of_lt (hascending.2.2 v hold last List.mem_cons_self)
  · rw [List.mem_singleton.1 hlast]
    exact Nat.lt_succ_self _

theorem Kept.nextVersion_eq (h : s.Kept) (spec : String) :
    (s.contains spec = false → s.nextVersion spec = 1) ∧
      (s.contains spec = true → ∃ v, s.latest? spec = some v ∧ s.nextVersion spec = v.version + 1) := by
  have hcontains : s.contains spec = (s.specs.find? spec).isSome := rfl
  rw [hcontains, h.full.find?_eq, nextVersion, latest?]
  by_cases hnil : s.versionsOf spec = []
  · rw [if_pos hnil, hnil]
    exact ⟨fun _ => rfl, fun hsome => (by cases hsome)⟩
  · rw [if_neg hnil, List.getLast?_eq_some_getLast hnil]
    exact ⟨fun hnone => (by cases hnone), fun _ => ⟨_, rfl, rfl⟩⟩

theorem Kept.push (h : s.Kept) {v : SpecVersion} (hv : v.version = s.nextVersion v.spec) :
    (s.push v).Kept := by
  refine ⟨h.full.push v, fun spec => ?_, fun spec w hw => ?_⟩
  · rw [versionsOf_push]
    split
    · next heq =>
      refine List.pairwise_append.2 ⟨h.ascending spec, List.pairwise_singleton _ v, fun w hw u hu => ?_⟩
      rw [List.mem_singleton.1 hu, hv, heq]
      exact h.lt_nextVersion hw
    · exact h.ascending spec
  · rw [versionsOf_push] at hw
    split at hw
    · next heq =>
      rcases List.mem_append.1 hw with hold | hnew
      · exact h.filed spec w hold
      · rw [List.mem_singleton.1 hnew, heq]
    · exact h.filed spec w hw

/-- The store without a spec. -/
def without (s : Store) (spec : String) : Store := { s with specs := s.specs.erase spec }

theorem versionsOf_without (s : Store) (spec other : String) :
    (s.without spec).versionsOf other = if spec = other then [] else s.versionsOf other := by
  rw [versionsOf, without, Dict.find?_erase]
  split <;> rfl

theorem Kept.without (h : s.Kept) (spec : String) : (s.without spec).Kept := by
  refine ⟨fun other heq => ?_, fun other => ?_, fun other v hv => ?_⟩
  · rw [Store.without, Dict.find?_erase] at heq
    split at heq
    · cases heq
    · exact h.full other heq
  · rw [versionsOf_without]
    split
    · exact .nil
    · exact h.ascending other
  · rw [versionsOf_without] at hv
    split at hv
    · cases hv
    · exact h.filed other v hv

/-- A version is found by its number. -/
theorem Kept.get?_eq (h : s.Kept) {v : SpecVersion} (hv : v ∈ s.versionsOf spec) :
    s.get? spec v.version = some v := by
  have hsome : (s.get? spec v.version).isSome = true :=
    List.find?_isSome.2 ⟨v, hv, decide_eq_true rfl⟩
  obtain ⟨w, hw⟩ := Option.isSome_iff_exists.1 hsome
  have hversion : w.version = v.version := by simpa using List.find?_some hw
  rw [hw, (h.ascending spec).eq_of_version (List.mem_of_find?_eq_some hw) hv hversion]

/-! ## In a folder -/

/-- The files of a spec. -/
def filesOf (s : Store) (spec : String) : List (String × DiskItem) :=
  (s.versionsOf spec).map fun v => (v.fileName, .file v.text)

theorem filesOf_push (s : Store) (v : SpecVersion) :
    (s.push v).filesOf v.spec = s.filesOf v.spec ++ [(v.fileName, .file v.text)] := by
  rw [filesOf, versionsOf_push, if_pos rfl, List.map_append]
  rfl

/-- No version has the file of the next one. -/
theorem Kept.lookup_filesOf (h : s.Kept) {v : SpecVersion} (hv : v.version = s.nextVersion v.spec) :
    (s.filesOf v.spec).lookup v.fileName = none := by
  refine List.lookup_eq_none_iff.2 fun e he => ?_
  obtain ⟨w, hw, rfl⟩ := List.mem_map.1 he
  refine bne_iff_ne.2 fun heq => Nat.ne_of_lt (h.lt_nextVersion hw) ?_
  rw [← hv, SpecVersion.fileName_inj heq]

/-- The folder at a path holds what the store has, and nothing else. -/
structure Shelved (path : String) (s : Store) (items : List (String × DiskItem)) : Prop where
  nodup : (items.map Prod.fst).Nodup
  names : ∀ name ∈ items.map Prod.fst, isName name = true ∧ Disk.refusal? path name = none
  held : ∀ e ∈ items, e.2 = .folder (s.filesOf e.1)
  stored : ∀ spec, s.versionsOf spec ≠ [] → spec ∈ items.map Prod.fst
  rereadable : ∀ spec, ∀ v ∈ s.versionsOf spec, v.Rereadable

namespace Shelved

variable {path : String} {items : List (String × DiskItem)}

theorem empty (path : String) (place : Option String) : Shelved path ⟨Dict.empty, place⟩ [] :=
  ⟨List.nodup_nil, fun _ h => (by cases h), fun _ h => (by cases h), fun _ h => absurd rfl h,
    fun _ _ h => (by cases h)⟩

theorem lookup_cases (h : Shelved path s items) (spec : String) :
    items.lookup spec = some (.folder (s.filesOf spec)) ∨
      items.lookup spec = none ∧ s.versionsOf spec = [] := by
  cases hlookup : items.lookup spec with
  | some item => exact .inl (congrArg some (h.held _ (DiskItem.mem_of_lookup hlookup)))
  | none =>
    refine .inr ⟨rfl, ?_⟩
    by_contra hne
    obtain ⟨item, hitem⟩ := DiskItem.lookup_of_mem (h.stored spec hne)
    rw [hlookup] at hitem
    cases hitem

/-- A folder may be missing before any version is there. -/
theorem getD_lookup (h : Shelved path s items) (spec : String) :
    (items.lookup spec).getD emptyFolder = .folder (s.filesOf spec) := by
  rcases h.lookup_cases spec with hlookup | ⟨hlookup, hnil⟩
  · rw [hlookup, Option.getD_some]
  · rw [hlookup, Option.getD_none, filesOf, hnil]
    rfl

/-- One spec comes to have other versions, and its folder their files. -/
theorem put {s' : Store} (h : Shelved path s items) (hname : isName spec = true)
    (hrefusal : Disk.refusal? path spec = none)
    (hothers : ∀ other, other ≠ spec → s'.versionsOf other = s.versionsOf other)
    (hread : ∀ v ∈ s'.versionsOf spec, v.Rereadable) :
    Shelved path s' (replace spec (.folder (s'.filesOf spec)) items) := by
  refine ⟨DiskItem.nodup_replace _ _ h.nodup, fun name hin => ?_, fun e he => ?_, fun other hne => ?_,
    fun other v hv => ?_⟩
  · rcases DiskItem.mem_keys_replace.1 hin with hold | rfl
    · exact h.names name hold
    · exact ⟨hname, hrefusal⟩
  · rcases DiskItem.mem_replace h.nodup he with rfl | ⟨hne, hold⟩
    · rfl
    · rw [h.held e hold, filesOf, filesOf, hothers e.1 hne]
  · refine DiskItem.mem_keys_replace.2 ?_
    by_cases heq : other = spec
    · exact .inr heq
    · exact .inl (h.stored other (hothers other heq ▸ hne))
  · by_cases heq : other = spec
    · subst heq
      exact hread v hv
    · exact h.rereadable other v (hothers other heq ▸ hv)

theorem push (h : Shelved path s items) {v : SpecVersion} (hname : isName v.spec = true)
    (hrefusal : Disk.refusal? path v.spec = none) (hread : v.Rereadable) :
    Shelved path (s.push v) (replace v.spec (.folder ((s.push v).filesOf v.spec)) items) := by
  refine h.put hname hrefusal (fun other hne => ?_) fun w hw => ?_
  · rw [versionsOf_push, if_neg (Ne.symm hne)]
  · rw [versionsOf_push, if_pos rfl] at hw
    rcases List.mem_append.1 hw with hold | hnew
    · exact h.rereadable v.spec w hold
    · exact List.mem_singleton.1 hnew ▸ hread

theorem without (h : Shelved path s items) (spec : String) :
    Shelved path (s.without spec) (items.filter fun i => i.1 ≠ spec) := by
  have hmem : ∀ e, e ∈ items.filter (fun i => i.1 ≠ spec) ↔ e ∈ items ∧ e.1 ≠ spec := by
    intro e
    rw [List.mem_filter, decide_eq_true_eq]
  refine ⟨h.nodup.sublist (List.filter_sublist.map _), fun name hin => ?_, fun e he => ?_,
    fun other hne => ?_, fun other v hv => ?_⟩
  · obtain ⟨e, he, rfl⟩ := List.mem_map.1 hin
    exact h.names _ (List.mem_map_of_mem ((hmem e).1 he).1)
  · obtain ⟨hold, hother⟩ := (hmem e).1 he
    rw [h.held e hold, filesOf, filesOf, versionsOf_without, if_neg (Ne.symm hother)]
  · rw [versionsOf_without] at hne
    split at hne
    · exact absurd rfl hne
    · next hother =>
      obtain ⟨e, he, rfl⟩ := List.mem_map.1 (h.stored other hne)
      exact List.mem_map_of_mem ((hmem e).2 ⟨he, Ne.symm hother⟩)
  · rw [versionsOf_without] at hv
    split at hv
    · cases hv
    · exact h.rereadable other v hv

theorem congr {s' : Store} (h : Shelved path s items)
    (hversions : ∀ spec, s'.versionsOf spec = s.versionsOf spec) : Shelved path s' items := by
  refine ⟨h.nodup, h.names, fun e he => ?_, fun spec hne => ?_, fun spec v hv => ?_⟩
  · rw [h.held e he, filesOf, filesOf, hversions]
  · exact h.stored spec (hversions spec ▸ hne)
  · exact h.rereadable spec v (hversions spec ▸ hv)

theorem readingsOf_folder (s : Store) (spec : String) :
    readingsOf (.folder (s.filesOf spec)) = (s.versionsOf spec).map fun v => .ok v.text := by
  have hall : (s.filesOf spec).filter (fun i => isVersionFile i.1) = s.filesOf spec := by
    refine List.filter_eq_self.2 fun i hi => ?_
    obtain ⟨v, -, rfl⟩ := List.mem_map.1 hi
    exact v.isVersionFile_fileName
  rw [readingsOf, hall, filesOf, List.map_map]
  rfl

/-- The files hold the versions of the store. -/
theorem mem_readings (h : Shelved path s items) {r : Except DiskFault String} :
    r ∈ (items.flatMap fun i => readingsOf i.2) ↔ ∃ spec, ∃ v ∈ s.versionsOf spec, r = .ok v.text := by
  rw [List.mem_flatMap]
  constructor
  · rintro ⟨e, he, hr⟩
    rw [h.held e he, readingsOf_folder] at hr
    obtain ⟨v, hv, rfl⟩ := List.mem_map.1 hr
    exact ⟨e.1, v, hv, rfl⟩
  · rintro ⟨spec, v, hv, rfl⟩
    obtain ⟨e, he, rfl⟩ := List.mem_map.1 (h.stored spec (List.ne_nil_of_mem hv))
    refine ⟨e, he, ?_⟩
    rw [h.held e he, readingsOf_folder]
    exact List.mem_map_of_mem hv

/-- What is read, in any order, is read back as the versions of the store. -/
theorem mem_filterMap_version? (h : Shelved path s items) {readings : List (Except DiskFault String)}
    (hperm : readings.Perm (items.flatMap fun i => readingsOf i.2)) {v : SpecVersion} :
    v ∈ readings.filterMap version? ↔ ∃ spec, v ∈ s.versionsOf spec := by
  rw [List.mem_filterMap]
  constructor
  · rintro ⟨r, hr, hrv⟩
    obtain ⟨spec, w, hw, rfl⟩ := h.mem_readings.1 (hperm.mem_iff.1 hr)
    have hwv : w = v := Option.some.inj ((h.rereadable spec w hw).symm.trans hrv)
    exact ⟨spec, hwv ▸ hw⟩
  · rintro ⟨spec, hv⟩
    exact ⟨_, hperm.mem_iff.2 (h.mem_readings.2 ⟨spec, v, hv, rfl⟩), h.rereadable spec v hv⟩

/-- Loading the files, in any order, adds nothing to the store they are the files of, and
makes all of it of a store that is still empty. -/
theorem loadAll_eq (h : Shelved path s items) (hs : s.Kept) {s₀ : Store}
    (hempty : s₀ = s ∨ s₀ = ⟨Dict.empty, s.folder⟩) {readings : List (Except DiskFault String)}
    (hperm : readings.Perm (items.flatMap fun i => readingsOf i.2)) :
    s₀.loadAll readings = (.ok readings.length, s) := by
  have hread : ∀ r ∈ readings, (version? r).isSome = true := by
    intro r hr
    obtain ⟨spec, v, hv, rfl⟩ := h.mem_readings.1 (hperm.mem_iff.1 hr)
    exact Option.isSome_iff_exists.2 ⟨v, h.rereadable spec v hv⟩
  have hloaded : ∀ spec v, v ∈ readings.filterMap version? ∧ v.spec = spec ↔ v ∈ s.versionsOf spec := by
    intro spec v
    rw [h.mem_filterMap_version? hperm]
    constructor
    · rintro ⟨⟨other, hv⟩, rfl⟩
      rwa [hs.filed other v hv]
    · exact fun hv => ⟨⟨spec, hv⟩, hs.filed spec v hv⟩
  rcases hempty with rfl | rfl
  · refine loadAll_eq_of_mem hread rfl hs.full hs.full hs.ascending fun spec v => ?_
    rw [hloaded, or_self]
  · refine loadAll_eq_of_mem hread rfl (kept_empty _).full hs.full hs.ascending fun spec v => ?_
    rw [hloaded]
    exact or_iff_right List.not_mem_nil

end Shelved

end Store
end JobPipeline
