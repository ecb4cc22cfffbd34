import JobPipeline.Proofs.Dict
import JobPipeline.Store.Loading
import Mathlib.Data.List.Nodup
import Mathlib.Data.List.Sort
import Mathlib.Data.List.TakeWhile

/-
What loading makes of the versions it reads.

A loaded version goes behind those that its spec has, in the order of the files, and only
then are the versions of each spec arranged.  So what counts is which versions have been
put there: if they are those of an ascending list, in any order and any number of times,
arranging gives that list.
-/
namespace JobPipeline

/-! ## Arranging -/

/-- Numbers that go up. -/
def Ascending (versions : List SpecVersion) : Prop :=
  versions.Pairwise fun v w => v.version < w.version

theorem Ascending.eq_of_version {versions : List SpecVersion} (h : Ascending versions)
    {v w : SpecVersion} (hv : v ∈ versions) (hw : w ∈ versions) (heq : v.version = w.version) : v = w := by
  have hnodup : (versions.map SpecVersion.version).Nodup :=
    List.pairwise_map.2 (h.imp fun hlt => Nat.ne_of_lt hlt)
  exact List.inj_on_of_nodup_map hnodup hv hw heq

theorem Ascending.eq_of_mem {versions versions' : List SpecVersion} (h : Ascending versions)
    (h' : Ascending versions') (hmem : ∀ v, v ∈ versions ↔ v ∈ versions') : versions = versions' := by
  have hnodup : ∀ {all : List SpecVersion}, Ascending all → all.Nodup := fun hall =>
    List.Pairwise.imp (fun hlt => ne_of_apply_ne SpecVersion.version (Nat.ne_of_lt hlt)) hall
  refine ((List.perm_ext_iff_of_nodup (hnodup h) (hnodup h')).2 hmem).eq_of_pairwise ?_ h h'
  exact fun v w _ _ hlt hgt => absurd hgt (Nat.lt_asymm hlt)

namespace Store

theorem withoutRepeats_cons (v : SpecVersion) (versions : List SpecVersion) :
    ∃ more, withoutRepeats (v :: versions) = v :: more ∧
      (withoutRepeats versions = more ∨
        ∃ w, withoutRepeats versions = w :: more ∧ v.version = w.version) := by
  rw [withoutRepeats]
  cases hrest : withoutRepeats versions with
  | nil => exact ⟨[], rfl, .inl rfl⟩
  | cons w more =>
    dsimp only
    split
    · next heq => exact ⟨more, rfl, .inr ⟨w, rfl, heq⟩⟩
    · exact ⟨w :: more, rfl, .inl rfl⟩

theorem withoutRepeats_subset (versions : List SpecVersion) :
    withoutRepeats versions ⊆ versions := by
  induction versions with
  | nil => exact List.Subset.refl _
  | cons v versions ih =>
    obtain ⟨more, hcons, hmore⟩ := withoutRepeats_cons v versions
    rw [hcons]
    refine List.cons_subset_cons v fun w hw => ih ?_
    rcases hmore with hsame | ⟨u, hdropped, -⟩
    · exact hsame ▸ hw
    · rw [hdropped]
      exact List.mem_cons_of_mem u hw

/-- No number is lost. -/
theorem exists_mem_withoutRepeats {versions : List SpecVersion} {v : SpecVersion} (h : v ∈ versions) :
    ∃ w ∈ withoutRepeats versions, w.version = v.version := by
  induction versions with
  | nil => cases h
  | cons u versions ih =>
    obtain ⟨more, hcons, hmore⟩ := withoutRepeats_cons u versions
    rw [hcons]
    rcases List.mem_cons.1 h with rfl | h
    · exact ⟨v, List.mem_cons_self, rfl⟩
    · obtain ⟨w, hw, hversion⟩ := ih h
      rcases hmore with hsame | ⟨x, hdropped, heq⟩
      · exact ⟨w, List.mem_cons_of_mem u (hsame ▸ hw), hversion⟩
      · rw [hdropped] at hw
        rcases List.mem_cons.1 hw with rfl | hw
        · exact ⟨u, List.mem_cons_self, heq.trans hversion⟩
        · exact ⟨w, List.mem_cons_of_mem u hw, hversion⟩

theorem ascending_withoutRepeats {versions : List SpecVersion}
    (h : versions.Pairwise fun v w => v.version ≤ w.version) : Ascending (withoutRepeats versions) := by
  induction versions with
  | nil => exact .nil
  | cons v versions ih =>
    obtain ⟨hle, hrest⟩ := List.pairwise_cons.1 h
    have hall := ih hrest
    rw [withoutRepeats]
    cases hcons : withoutRepeats versions with
    | nil => exact List.pairwise_singleton _ v
    | cons w more =>
      rw [hcons] at hall
      obtain ⟨hmore, hmoreAscending⟩ := List.pairwise_cons.1 hall
      have hw : w ∈ versions := withoutRepeats_subset versions (hcons ▸ List.mem_cons_self)
      dsimp only
      split
      · next heq => exact List.pairwise_cons.2 ⟨fun x hx => heq ▸ hmore x hx, hmoreAscending⟩
      · next hne =>
        have hlt : v.version < w.version := Nat.lt_of_le_of_ne (hle w hw) hne
        refine List.pairwise_cons.2 ⟨fun x hx => ?_, hall⟩
        rcases List.mem_cons.1 hx with rfl | hx
        · exact hlt
        · exact Nat.lt_trans hlt (hmore x hx)

theorem arranged_nil : arranged [] = [] := by
  rw [arranged, List.mergeSort_nil]
  rfl

theorem version_le_trans (u v w : SpecVersion) (huv : decide (u.version ≤ v.version) = true)
    (hvw : decide (v.version ≤ w.version) = true) : decide (u.version ≤ w.version) = true :=
  decide_eq_true (Nat.le_trans (of_decide_eq_true huv) (of_decide_eq_true hvw))

theorem version_le_total (v w : SpecVersion) :
    (decide (v.version ≤ w.version) || decide (w.version ≤ v.version)) = true := by
  rw [Bool.or_eq_true, decide_eq_true_eq, decide_eq_true_eq]
  exact Nat.le_total ..

theorem ascending_arranged (versions : List SpecVersion) : Ascending (arranged versions) :=
  ascending_withoutRepeats ((List.pairwise_mergeSort version_le_trans version_le_total versions).imp
    fun hle => of_decide_eq_true hle)

theorem mem_of_mem_arranged {versions : List SpecVersion} {v : SpecVersion} (h : v ∈ arranged versions) :
    v ∈ versions := List.mem_mergeSort.1 (withoutRepeats_subset _ h)

theorem exists_mem_arranged {versions : List SpecVersion} {v : SpecVersion} (h : v ∈ versions) :
    ∃ w ∈ arranged versions, w.version = v.version := exists_mem_withoutRepeats (List.mem_mergeSort.2 h)

/-- Versions of an ascending list, in any order and any number of times, are arranged to
the list. -/
theorem arranged_eq {versions loaded : List SpecVersion} (h : Ascending versions)
    (hmem : ∀ v, v ∈ loaded ↔ v ∈ versions) : arranged loaded = versions := by
  refine (ascending_arranged loaded).eq_of_mem h fun v =>
    ⟨fun hv => (hmem v).1 (mem_of_mem_arranged hv), fun hv => ?_⟩
  obtain ⟨w, hw, hversion⟩ := exists_mem_arranged ((hmem v).2 hv)
  rwa [← h.eq_of_version ((hmem w).1 (mem_of_mem_arranged hw)) hv hversion]

theorem arranged_ne_nil {versions : List SpecVersion} (h : versions ≠ []) : arranged versions ≠ [] := by
  obtain ⟨v, hv⟩ := List.exists_mem_of_ne_nil versions h
  obtain ⟨w, hw, -⟩ := exists_mem_arranged hv
  exact List.ne_nil_of_mem hw

/-! ## Reading -/

/-- The version that was read, if it is one. -/
def version? : Except DiskFault String → Option SpecVersion
  | .ok text => SpecVersion.ofText? text
  | .error _ => none

def pushAll (s : Store) (versions : List SpecVersion) : Store := versions.foldl push s

/-- The versions that are read before a file cannot be. -/
def readBefore (readings : List (Except DiskFault String)) : List SpecVersion :=
  (readings.takeWhile fun r => r.isOk).filterMap version?

theorem addAll_cases (readings : List (Except DiskFault String)) (count : Nat) (s : Store) :
    (readings.all (fun r => r.isOk) = true ∧ addAll readings count s =
        (.ok (count + (readBefore readings).length), s.pushAll (readBefore readings))) ∨
      (readings.all (fun r => r.isOk) = false ∧
        ∃ fault, addAll readings count s = (.error fault, s.pushAll (readBefore readings))) := by
  induction readings generalizing count s with
  | nil => exact .inl ⟨rfl, rfl⟩
  | cons r readings ih =>
    cases r with
    | error fault => exact .inr ⟨rfl, fault, rfl⟩
    | ok text =>
      rw [addAll, readBefore, List.takeWhile_cons_of_pos rfl]
      cases hread : version? (.ok text) with
      | none =>
        rw [List.filterMap_cons_none hread, show SpecVersion.ofText? text = none from hread]
        exact ih count s
      | some v =>
        rw [List.filterMap_cons_some hread, show SpecVersion.ofText? text = some v from hread,
          List.length_cons, ← Nat.add_assoc, Nat.add_right_comm]
        exact ih (count + 1) (s.push v)

theorem find?_push (s : Store) (v : SpecVersion) (spec : String) :
    (s.push v).specs.find? spec =
      if v.spec = spec then some (s.versionsOf spec ++ [v]) else s.specs.find? spec := by
  rw [push, Dict.find?_insert]
  split
  · next heq => rw [heq]
  · rfl

theorem versionsOf_push (s : Store) (v : SpecVersion) (spec : String) :
    (s.push v).versionsOf spec =
      if v.spec = spec then s.versionsOf spec ++ [v] else s.versionsOf spec := by
  rw [versionsOf, find?_push]
  split <;> rfl

theorem mem_push (s : Store) (v : SpecVersion) : v ∈ (s.push v).versionsOf v.spec := by
  rw [versionsOf_push, if_pos rfl]
  exact List.mem_append_right _ List.mem_cons_self

theorem versionsOf_pushAll (s : Store) (versions : List SpecVersion) (spec : String) :
    (s.pushAll versions).versionsOf spec =
      s.versionsOf spec ++ versions.filter fun v => v.spec = spec := by
  induction versions generalizing s with
  | nil => exact (List.append_nil _).symm
  | cons v versions ih =>
    have hcons : s.pushAll (v :: versions) = (s.push v).pushAll versions := rfl
    rw [hcons, ih, versionsOf_push]
    by_cases heq : v.spec = spec
    · rw [if_pos heq, List.filter_cons_of_pos (by simpa using heq), List.append_assoc,
        List.singleton_append]
    · rw [if_neg heq, List.filter_cons_of_neg (by simpa using heq)]

/-- No spec is there without a version. -/
def Full (s : Store) : Prop := ∀ spec, s.specs.find? spec ≠ some []

theorem Full.push {s : Store} (h : s.Full) (v : SpecVersion) : (s.push v).Full := by
  intro spec
  rw [find?_push]
  split
  · exact fun heq => List.append_ne_nil_of_right_ne_nil _ (List.cons_ne_nil v []) (Option.some.inj heq)
  · exact h spec

theorem Full.pushAll {s : Store} (h : s.Full) (versions : List SpecVersion) : (s.pushAll versions).Full := by
  induction versions generalizing s with
  | nil => exact h
  | cons v versions ih => exact ih (h.push v)

theorem Full.find?_eq {s : Store} (h : s.Full) (spec : String) :
    s.specs.find? spec = if s.versionsOf spec = [] then none else some (s.versionsOf spec) := by
  rw [versionsOf]
  cases hfound : s.specs.find? spec with
  | none => rfl
  | some versions =>
    have hne : versions ≠ [] := fun hnil => h spec (by rw [hfound, hnil])
    rw [Option.getD_some, if_neg hne]

/-- Stores that lie in one place and have the same versions are the same. -/
theorem Full.ext {s s' : Store} (h : s.Full) (h' : s'.Full) (hfolder : s.folder = s'.folder)
    (hversions : ∀ spec, s.versionsOf spec = s'.versionsOf spec) : s = s' := by
  have hspecs : s.specs = s'.specs := by
    refine Dict.eq_of_find? fun spec => ?_
    rw [h.find?_eq, h'.find?_eq, hversions]
  cases s
  cases s'
  cases hspecs
  cases hfolder
  rfl

theorem loadAll_cases (s : Store) (readings : List (Except DiskFault String)) :
    (readings.all (fun r => r.isOk) = true ∧ s.loadAll readings =
        (.ok (readBefore readings).length, { s.pushAll (readBefore readings) with
          specs := (s.pushAll (readBefore readings)).specs.map arranged })) ∨
      (readings.all (fun r => r.isOk) = false ∧
        ∃ fault, s.loadAll readings = (.error fault, s.pushAll (readBefore readings))) := by
  rw [loadAll]
  rcases addAll_cases readings 0 s with ⟨hall, hadd⟩ | ⟨hall, fault, hadd⟩
  · rw [hadd, Nat.zero_add]
    exact .inl ⟨hall, rfl⟩
  · rw [hadd]
    exact .inr ⟨hall, fault, rfl⟩

theorem loadAll_eq {readings : List (Except DiskFault String)}
    (h : ∀ r ∈ readings, (version? r).isSome = true) (s : Store) :
    s.loadAll readings = (.ok readings.length,
      { s.pushAll (readings.filterMap version?) with
        specs := (s.pushAll (readings.filterMap version?)).specs.map arranged }) := by
  have hok : ∀ r ∈ readings, r.isOk = true := fun r hr => by
    cases r with
    | error fault => cases h _ hr
    | ok text => rfl
  have hread : readBefore readings = readings.filterMap version? := by
    rw [readBefore, List.takeWhile_eq_self_iff.2 hok]
  have hlength : (readings.filterMap version?).length = readings.length :=
    List.filterMap_length_eq_length.2 h
  rcases s.loadAll_cases readings with ⟨-, hload⟩ | ⟨hfails, -⟩
  · rw [hload, hread, hlength]
  · rw [List.all_eq_true.2 hok] at hfails
    cases hfails

theorem versionsOf_map_arranged (s : Store) (spec : String) :
    ({ s with specs := s.specs.map arranged } : Store).versionsOf spec = arranged (s.versionsOf spec) := by
  rw [versionsOf, Dict.find?_map, versionsOf]
  cases s.specs.find? spec with
  | none => exact arranged_nil.symm
  | some versions => rfl

theorem folder_pushAll (s : Store) (versions : List SpecVersion) : (s.pushAll versions).folder = s.folder := by
  induction versions generalizing s with
  | nil => rfl
  | cons v versions ih => exact ih (s.push v)

/-- If what is there already and what is read are together the versions of a store, then
loading gives that store. -/
theorem loadAll_eq_of_mem {s full : Store} {readings : List (Except DiskFault String)}
    (hread : ∀ r ∈ readings, (version? r).isSome = true) (hfolder : s.folder = full.folder)
    (hs : s.Full) (hfull : full.Full) (hascending : ∀ spec, Ascending (full.versionsOf spec))
    (hmem : ∀ spec v, v ∈ s.versionsOf spec ∨ (v ∈ readings.filterMap version? ∧ v.spec = spec) ↔
      v ∈ full.versionsOf spec) :
    s.loadAll readings = (.ok readings.length, full) := by
  rw [loadAll_eq hread]
  let loaded := s.pushAll (readings.filterMap version?)
  have hfind : ∀ spec, (loaded.specs.map arranged).find? spec = (loaded.specs.find? spec).map arranged :=
    fun spec => Dict.find?_map arranged loaded.specs spec
  have hloaded : loaded.Full := hs.pushAll _
  have harranged : ({ loaded with specs := loaded.specs.map arranged } : Store).Full := by
    intro spec heq
    rw [hfind] at heq
    obtain ⟨versions, hversions, hnil⟩ := Option.map_eq_some_iff.1 heq
    exact arranged_ne_nil (fun hempty => hloaded spec (hempty ▸ hversions)) hnil
  refine congrArg _ (harranged.ext hfull ((folder_pushAll s _).trans hfolder) fun spec => ?_)
  rw [versionsOf_map_arranged, versionsOf_pushAll]
  refine arranged_eq (hascending spec) fun v => ?_
  rw [List.mem_append, List.mem_filter, decide_eq_true_eq]
  exact hmem spec v

/-! ## Loading from a disk -/

theorem load_of_missing {s : Store} {path : String} {disk : Disk} (hfolder : s.folder = some path)
    (hmissing : disk.contains path = false) : s.load disk = (.ok 0, s) := by
  rw [load, hfolder]
  simp only [hmissing, Bool.false_eq_true, if_false]

theorem load_of_list {s : Store} {path : String} {disk : Disk} {items : List (String × DiskItem)}
    (hfolder : s.folder = some path) (hlist : disk.list path = .ok items) :
    s.load disk = ((s.loadAll (items.flatMap fun i => readingsOf i.2)).1.mapError .inputOutput,
      (s.loadAll (items.flatMap fun i => readingsOf i.2)).2) := by
  have hcontains : disk.contains path = true := by
    rw [Disk.list] at hlist
    rw [Disk.contains]
    cases hfind : disk.find path with
    | error fault =>
      rw [hfind] at hlist
      cases hlist
    | ok item => rfl
  rw [load, hfolder]
  simp only [hcontains, if_true, hlist]
  cases s.loadAll (items.flatMap fun i => readingsOf i.2) with
  | mk answer after => cases answer <;> rfl

end Store
end JobPipeline
