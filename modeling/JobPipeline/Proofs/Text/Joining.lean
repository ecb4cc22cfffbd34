import JobPipeline.Text.Segment

/-
Laws of laying parts one after another, and of taking them apart again.
-/
namespace JobPipeline
namespace Text

theorem joinWith_eq_intercalate (sep : List Char) (parts : List (List Char)) :
    joinWith sep parts = sep.intercalate parts := by
  induction parts with
  | nil => rfl
  | cons part parts ih =>
    cases parts with
    | nil => exact List.intercalate_singleton.symm
    | cons next parts => rw [joinWith, ih, List.intercalate_cons_cons]

/-- Each part but the first has the separator before it. -/
theorem joinWith_cons (sep part : List Char) (parts : List (List Char)) :
    joinWith sep (part :: parts) = part ++ parts.flatMap fun p => sep ++ p := by
  induction parts generalizing part with
  | nil => simp [joinWith]
  | cons next parts ih => rw [joinWith, ih, List.flatMap_cons, List.append_assoc, List.append_assoc]

theorem joinWith_append (sep : List Char) {first second : List (List Char)} (hfirst : first ≠ [])
    (hsecond : second ≠ []) :
    joinWith sep (first ++ second) = joinWith sep first ++ (sep ++ joinWith sep second) := by
  obtain ⟨p, ps, rfl⟩ := List.exists_cons_of_ne_nil hfirst
  obtain ⟨q, qs, rfl⟩ := List.exists_cons_of_ne_nil hsecond
  rw [List.cons_append, joinWith_cons, joinWith_cons, joinWith_cons, List.flatMap_append,
    List.flatMap_cons]
  simp only [List.append_assoc]

/-- Each part in front of another has the separator behind it. -/
theorem joinWith_append_cons (sep : List Char) (front : List (List Char)) (part : List Char)
    (rest : List (List Char)) :
    joinWith sep (front ++ part :: rest) =
      (front.flatMap fun p => p ++ sep) ++ joinWith sep (part :: rest) := by
  induction front with
  | nil => rfl
  | cons first front ih =>
    have happend := joinWith_append sep (List.cons_ne_nil first [])
      (List.append_ne_nil_of_right_ne_nil front (List.cons_ne_nil part rest))
    rw [List.cons_append, ← List.singleton_append, happend, ih, List.flatMap_cons]
    simp only [joinWith, List.append_assoc]

/-- Parts can be put together in groups first. -/
theorem joinWith_flatten (sep : List Char) {groups : List (List (List Char))}
    (h : ∀ group ∈ groups, group ≠ []) :
    joinWith sep groups.flatten = joinWith sep (groups.map (joinWith sep)) := by
  induction groups with
  | nil => rfl
  | cons group groups ih =>
    obtain ⟨hgroup, hgroups⟩ := List.forall_mem_cons.1 h
    cases groups with
    | nil => simp [joinWith]
    | cons next groups =>
      have hnext : (next :: groups).flatten ≠ [] := by
        rw [List.flatten_cons]
        exact List.append_ne_nil_of_left_ne_nil (hgroups next List.mem_cons_self) _
      rw [List.flatten_cons, joinWith_append sep hgroup hnext, ih hgroups, ← List.append_assoc]
      rfl

theorem infix_joinWith {sep part : List Char} {parts : List (List Char)} (h : part ∈ parts) :
    part <:+: joinWith sep parts := by
  obtain ⟨first, rest, rfl⟩ := List.exists_cons_of_ne_nil (List.ne_nil_of_mem h)
  rw [joinWith_cons]
  rcases List.mem_cons.1 h with rfl | h
  · exact (List.prefix_append _ _).isInfix
  · have hpart : part <:+: sep ++ part := (List.suffix_append sep part).isInfix
    refine (hpart.trans ?_).trans (List.suffix_append first _).isInfix
    obtain ⟨before, after, rfl⟩ := List.append_of_mem h
    rw [List.flatMap_append, List.flatMap_cons]
    exact List.infix_append' ..

theorem mem_joinWith {sep : List Char} {parts : List (List Char)} {c : Char}
    (h : c ∈ joinWith sep parts) : c ∈ sep ∨ ∃ part ∈ parts, c ∈ part := by
  cases parts with
  | nil => cases h
  | cons part parts =>
    rw [joinWith_cons, List.mem_append, List.mem_flatMap] at h
    rcases h with h | ⟨other, hother, h⟩
    · exact .inr ⟨part, List.mem_cons_self, h⟩
    · rcases List.mem_append.1 h with h | h
      · exact .inl h
      · exact .inr ⟨other, List.mem_cons_of_mem _ hother, h⟩

/-! ## Parts between the occurrences of a character -/

theorem splitOn_of_not_mem {sep : Char} {cs : List Char} (h : sep ∉ cs) : splitOn sep cs = [cs] := by
  induction cs with
  | nil => rfl
  | cons c cs ih =>
    rw [List.mem_cons, not_or] at h
    rw [splitOn, if_neg (Ne.symm h.1), ih h.2]

/-- The parts before an occurrence and the parts behind it. -/
theorem splitOn_append_cons (sep : Char) (front rest : List Char) :
    splitOn sep (front ++ sep :: rest) = splitOn sep front ++ splitOn sep rest := by
  induction front with
  | nil =>
    show splitOn sep (sep :: rest) = [] :: splitOn sep rest
    rw [splitOn, if_pos rfl]
  | cons c front ih =>
    obtain ⟨part, parts, hparts⟩ := List.exists_cons_of_ne_nil (splitOn_ne_nil sep front)
    rw [List.cons_append, splitOn, splitOn, ih, hparts]
    split <;> rfl

theorem splitOn_append {sep : Char} {part : List Char} (h : sep ∉ part) (rest : List Char) :
    splitOn sep (part ++ sep :: rest) = part :: splitOn sep rest := by
  rw [splitOn_append_cons, splitOn_of_not_mem h, List.singleton_append]

theorem splitOn_joinWith {sep : Char} {parts : List (List Char)} (hne : parts ≠ [])
    (h : ∀ part ∈ parts, sep ∉ part) : splitOn sep (joinWith [sep] parts) = parts := by
  induction parts with
  | nil => exact absurd rfl hne
  | cons part parts ih =>
    obtain ⟨hpart, hparts⟩ := List.forall_mem_cons.1 h
    cases parts with
    | nil => exact splitOn_of_not_mem hpart
    | cons next parts =>
      rw [joinWith, List.append_assoc, List.singleton_append, splitOn_append hpart,
        ih (List.cons_ne_nil next parts) hparts]

theorem splitOn_head_eq_nil {sep : Char} {cs part : List Char} {parts : List (List Char)}
    (h : splitOn sep cs = part :: parts) : part = [] ↔ ∀ c ∈ cs.head?, c = sep := by
  cases cs with
  | nil =>
    obtain ⟨rfl, -⟩ := List.cons.inj h
    simp
  | cons c cs =>
    obtain ⟨first, rest, hrest⟩ := List.exists_cons_of_ne_nil (splitOn_ne_nil sep cs)
    rw [splitOn, hrest] at h
    split at h
    · next hc =>
      obtain ⟨rfl, -⟩ := List.cons.inj h
      simp [hc]
    · next hc =>
      obtain ⟨rfl, -⟩ := List.cons.inj h
      simp [hc]

/-- The parts behind the first are not empty where a text neither ends with the separator
nor has two of them side by side. -/
theorem splitOn_tail_iff (sep : Char) (cs : List Char) :
    (∀ part ∈ (splitOn sep cs).tail, part ≠ []) ↔ cs.getLast? ≠ some sep ∧ ¬[sep, sep] <:+: cs := by
  induction cs with
  | nil => simp [splitOn]
  | cons c cs ih =>
    have hinfix : [sep, sep] <:+: c :: cs ↔ (c = sep ∧ cs.head? = some sep) ∨ [sep, sep] <:+: cs := by
      rw [List.infix_cons_iff, List.cons_prefix_cons, eq_comm, List.singleton_prefix_iff_head?_eq_some]
    obtain ⟨part, parts, hparts⟩ := List.exists_cons_of_ne_nil (splitOn_ne_nil sep cs)
    have hpart := splitOn_head_eq_nil hparts
    rw [hparts, List.tail_cons] at ih
    rw [splitOn, hparts, hinfix]
    split
    · next hc =>
      rw [List.tail_cons, List.forall_mem_cons, ih, Ne, hpart]
      cases cs with
      | nil => simp [hc]
      | cons d cs =>
        rw [List.getLast?_cons_cons]
        simp [hc, and_left_comm]
    · next hc =>
      rw [List.tail_cons, ih]
      cases cs with
      | nil => simp [hc]
      | cons d cs => simp [hc]

/-- A part has only other characters, and those of the text. -/
theorem mem_of_mem_splitOn {sep : Char} {cs part : List Char} (h : part ∈ splitOn sep cs) :
    ∀ c ∈ part, c ≠ sep ∧ c ∈ cs := by
  induction cs generalizing part with
  | nil =>
    rw [List.mem_singleton.1 h]
    simp
  | cons d cs ih =>
    rw [splitOn] at h
    split at h
    · rcases List.mem_cons.1 h with rfl | h
      · simp
      · exact fun c hc => (ih h c hc).imp_right (List.mem_cons_of_mem d)
    · next hd =>
      obtain ⟨first, parts, hparts⟩ := List.exists_cons_of_ne_nil (splitOn_ne_nil sep cs)
      rw [hparts] at h
      have hold : ∀ part ∈ first :: parts, ∀ c ∈ part, c ≠ sep ∧ c ∈ d :: cs :=
        fun part hpart c hc => (ih (hparts ▸ hpart) c hc).imp_right (List.mem_cons_of_mem d)
      rcases List.mem_cons.1 h with rfl | h
      · intro c hc
        rcases List.mem_cons.1 hc with rfl | hc
        · exact ⟨hd, List.mem_cons_self⟩
        · exact hold first List.mem_cons_self c hc
      · exact hold part (List.mem_cons_of_mem first h)

end Text
end JobPipeline
