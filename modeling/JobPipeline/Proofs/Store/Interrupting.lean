import JobPipeline.Proofs.Store.Histories

/-
Loading that is interrupted.

Whatever is read goes behind what the store has, and of equal numbers the first is found, so no
version that the store had is lost, at whatever file the loading ends.  The versions are put in
order at the end only.  A loading that fails before leaves what it has read where it came.
-/
namespace JobPipeline
namespace Store

/-! ## Arranging keeps what is found -/

theorem find?_withoutRepeats (versions : List SpecVersion) (n : Nat) :
    (withoutRepeats versions).find? (fun v => v.version = n) =
      versions.find? fun v => v.version = n := by
  induction versions with
  | nil => rfl
  | cons v versions ih =>
    obtain ⟨more, hcons, hmore⟩ := withoutRepeats_cons v versions
    rw [hcons]
    by_cases hv : v.version = n
    · rw [List.find?_cons_of_pos (by simpa using hv), List.find?_cons_of_pos (by simpa using hv)]
    · rw [List.find?_cons_of_neg (by simpa using hv), List.find?_cons_of_neg (by simpa using hv), ← ih]
      rcases hmore with hsame | ⟨w, hdropped, heq⟩
      · rw [hsame]
      · -- What was dropped has the number of `v`, so it was not looked for.
        rw [hdropped, List.find?_cons_of_neg (by simpa [← heq] using hv)]

/-- Sorting is stable: versions of one number stay in their order. -/
theorem filter_mergeSort (versions : List SpecVersion) (n : Nat) :
    (versions.mergeSort fun v w => v.version ≤ w.version).filter (fun v => v.version = n) =
      versions.filter fun v => v.version = n := by
  let same (v : SpecVersion) : Bool := v.version = n
  have hsorted : (versions.filter same).Pairwise fun v w => decide (v.version ≤ w.version) = true := by
    refine List.pairwise_of_forall_mem_list fun v hv w hw => decide_eq_true (Nat.le_of_eq ?_)
    exact (of_decide_eq_true (List.mem_filter.1 hv).2).trans
      (of_decide_eq_true (List.mem_filter.1 hw).2).symm
  have hsublist : List.Sublist (versions.filter same)
      (versions.mergeSort fun v w => v.version ≤ w.version) :=
    List.sublist_mergeSort version_le_trans version_le_total hsorted List.filter_sublist
  have hfiltered := hsublist.filter same
  rw [List.filter_eq_self.2 fun v hv => (List.mem_filter.1 hv).2] at hfiltered
  exact (hfiltered.eq_of_length ((List.mergeSort_perm versions _).filter same).length_eq.symm).symm

theorem find?_arranged (versions : List SpecVersion) (n : Nat) :
    (arranged versions).find? (fun v => v.version = n) = versions.find? fun v => v.version = n := by
  rw [arranged, find?_withoutRepeats, ← List.head?_filter, filter_mergeSort, List.head?_filter]

/-! ## Up to the first fault -/

theorem versionsOf_loadAll (s : Store) (readings : List (Except DiskFault String)) (spec : String) :
    let held := s.versionsOf spec ++ (readBefore readings).filter fun v => v.spec = spec
    (s.loadAll readings).2.versionsOf spec =
      if (s.loadAll readings).1.isOk then arranged held else held := by
  dsimp only
  rw [← versionsOf_pushAll]
  rcases s.loadAll_cases readings with ⟨-, hload⟩ | ⟨-, fault, hload⟩
  · rw [hload]
    exact versionsOf_map_arranged _ spec
  · rw [hload]
    rfl

/-- A loading ends well if every file can be read. -/
theorem isOk_loadAll (s : Store) (readings : List (Except DiskFault String)) :
    (s.loadAll readings).1.isOk = readings.all fun r => r.isOk := by
  rcases s.loadAll_cases readings with ⟨hall, hload⟩ | ⟨hall, fault, hload⟩
  · rw [hload, hall]
    rfl
  · rw [hload, hall]
    rfl

/-- No version is lost, whether the loading ends well or not.  The versions of every spec go up
if it does; if it does not, they do so only where those read before came in their order, behind all
that the spec had.  What a disk lists is read that way, or nothing is. -/
theorem load_keeps (s : Store) :
    (∀ readings,
      (∀ spec n v, s.get? spec n = some v → (s.loadAll readings).2.get? spec n = some v) ∧
      ((s.loadAll readings).1.isOk = true ↔ ∀ r ∈ readings, r.isOk = true) ∧
      ((∀ spec, Ascending ((s.loadAll readings).2.versionsOf spec)) ↔
        (s.loadAll readings).1.isOk = true ∨ ∀ spec,
          Ascending (s.versionsOf spec ++ (readBefore readings).filter fun v => v.spec = spec))) ∧
    ∀ disk, (s.load disk).2 = s ∨ ∃ path items, s.folder = some path ∧ disk.list path = .ok items ∧
      s.load disk = ((s.loadAll (items.flatMap fun i => readingsOf i.2)).1.mapError .inputOutput,
        (s.loadAll (items.flatMap fun i => readingsOf i.2)).2) := by
  refine ⟨fun readings => ⟨fun spec n v hv => ?_, ?_, ?_⟩, fun disk => ?_⟩
  · have hfound : (s.versionsOf spec ++ (readBefore readings).filter fun v => v.spec = spec).find?
        (fun v => v.version = n) = some v := by
      rw [List.find?_append, show (s.versionsOf spec).find? (fun v => v.version = n) = some v from hv]
      rfl
    rw [get?, versionsOf_loadAll]
    split
    · rw [find?_arranged, hfound]
    · exact hfound
  · rw [isOk_loadAll, List.all_eq_true]
  · cases hok : (s.loadAll readings).1.isOk with
    | true =>
      refine iff_of_true (fun spec => ?_) (.inl rfl)
      rw [versionsOf_loadAll, hok]
      exact ascending_arranged _
    | false =>
      have hheld : ∀ spec, (s.loadAll readings).2.versionsOf spec =
          s.versionsOf spec ++ (readBefore readings).filter fun v => v.spec = spec := by
        intro spec
        rw [versionsOf_loadAll, hok]
        rfl
      simp only [hheld, Bool.false_eq_true, false_or]
  · cases hfolder : s.folder with
    | none =>
      rw [load, hfolder]
      exact .inl rfl
    | some path =>
      cases hcontains : disk.contains path with
      | false =>
        rw [load_of_missing hfolder hcontains]
        exact .inl rfl
      | true =>
        cases hlist : disk.list path with
        | error fault =>
          have hload : s.load disk = (.error (.inputOutput fault), s) := by
            rw [load, hfolder]
            simp only [hcontains, if_true, hlist]
          exact .inl (congrArg Prod.snd hload)
        | ok items => exact .inr ⟨path, items, rfl, hlist, load_of_list hfolder hlist⟩

/-- A version of a spec with a job without tasks. -/
def bareVersion (n : Nat) : SpecVersion :=
  ⟨"feed", n, ⟨0, 0⟩, Snapshot.capture ⟨JobConfig.ofType .cron, TaskGraph.empty⟩⟩

/-- The first of two versions is read once more before a file cannot be: it is then the latest, and
the next version saved takes the place of the second. -/
theorem load_keeps_interrupted :
    let s := (inMemory.push (bareVersion 1)).push (bareVersion 2)
    let loaded := (s.loadAll [.ok (bareVersion 1).text, .error .isFolder]).2
    (∀ spec, Ascending (s.versionsOf spec)) ∧ (¬∀ spec, Ascending (loaded.versionsOf spec)) ∧
      loaded.get? "feed" 2 = some (bareVersion 2) ∧
      s.nextVersion "feed" = 3 ∧ loaded.nextVersion "feed" = 2 := by
  intro s loaded
  have hread : (bareVersion 1).Rereadable := by
    rw [SpecVersion.Rereadable, SpecVersion.ofText?, SpecVersion.text, Json.readAs?, Json.readWithin?_pretty]
    decide +kernel
  have hversion : version? (.ok (bareVersion 1).text) = some (bareVersion 1) := hread
  have hbefore : readBefore [.ok (bareVersion 1).text, .error .isFolder] = [bareVersion 1] := by
    rw [readBefore, List.takeWhile_cons_of_pos rfl, List.filterMap_cons_some hversion]
    rfl
  obtain ⟨hkeeps, -, hascending⟩ := (load_keeps s).1 [.ok (bareVersion 1).text, .error .isFolder]
  have hversions : loaded.versionsOf "feed" = [bareVersion 1, bareVersion 2, bareVersion 1] := by
    have hloaded := versionsOf_loadAll s [.ok (bareVersion 1).text, .error .isFolder] "feed"
    rw [isOk_loadAll, hbefore] at hloaded
    exact hloaded
  refine ⟨fun spec => ?_, ?_, hkeeps "feed" 2 (bareVersion 2) rfl, rfl, ?_⟩
  · rw [versionsOf_push, versionsOf_push]
    by_cases heq : "feed" = spec
    · subst heq
      exact List.pairwise_pair.2 (by decide)
    · have hneither : ∀ n, ¬(bareVersion n).spec = spec := fun _ => heq
      rw [if_neg (hneither 2), if_neg (hneither 1)]
      exact .nil
  · rw [hascending, isOk_loadAll, hbefore]
    rintro (hok | hall)
    · cases hok
    · exact absurd (hall "feed") (by unfold Ascending; decide)
  · rw [nextVersion, latest?, hversions]
    rfl

end Store
end JobPipeline
