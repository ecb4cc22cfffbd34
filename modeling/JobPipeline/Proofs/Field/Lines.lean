import JobPipeline.Proofs.Field.Lists
import JobPipeline.Proofs.Text.Joining

/-
A list that is edited line by line.

A list is cut into the parts that it is put together from, so what has been a list once
stays as it is when it is edited and kept again.  In the other direction the lines come
back if each of them is one part and leaves nothing open: a bracket that is open at the end
of a line may be closed by a later one, and so may a quote, and the comma between the two
does not cut then.
-/
namespace JobPipeline
namespace Field

/-- Every quote is closed, and so is every opening bracket that has not been given up. -/
structure Enclosed (cs : List Char) : Prop where
  /-- A quote that is not closed is read as a character. -/
  quotes : .char '"' ∉ atoms cs
  brackets : ((atoms cs).foldl Cut.step Cut.start).opened = []

instance (cs : List Char) : Decidable (Enclosed cs) :=
  decidable_of_iff (.char '"' ∉ atoms cs ∧ ((atoms cs).foldl Cut.step Cut.start).opened = [])
    ⟨fun h => ⟨h.1, h.2⟩, fun h => ⟨h.quotes, h.brackets⟩⟩

/-- No closing bracket belongs to one before the text if none is open there. -/
theorem hits_nil (stack : List Char) (as : List Atom) : hits [] stack as = false := by
  induction as generalizing stack with
  | nil => rfl
  | cons a as ih =>
    cases a with
    | literal inner => exact ih stack
    | char c =>
      rw [hits]
      split
      · exact ih (c :: stack)
      · split
        · exact ih stack
        · split
          · exact ih _
          · exact ih stack

/-- Where no bracket is open, the scanner goes on as from the start. -/
theorem Cut.finish_foldl_of_opened {cut : Cut} (hopened : cut.opened = []) (hcurrent : cut.current = [])
    (as : List Atom) :
    (as.foldl step cut).finish = (cut.finished.map List.reverse).reverse ++ (cuts [] as).map textOf := by
  have hordered : Ordered cut.finished.length cut.opened := by
    rw [hopened]
    exact ⟨List.Pairwise.nil, by simp⟩
  have hlow : low cut.finished.length cut.opened [] as = cut.finished.length := by
    refine low_of_not_hits ?_
    rw [hopened]
    exact hits_nil [] as
  have hne : (cuts [] as).map textOf ≠ [] := by simpa using cuts_ne_nil [] as
  rw [finish_foldl hordered, hlow, Nat.sub_self, settled_zero, hcurrent, List.reverse_nil, hopened,
    List.map_nil, glue_nil hne]

/-- A comma behind a text that leaves nothing open cuts, and each side has its own parts. -/
theorem Enclosed.splitTopLevel_append {xs : List Char} (h : Enclosed xs) (ys : List Char) :
    splitTopLevel (xs ++ ',' :: ys) = splitTopLevel xs ++ splitTopLevel ys := by
  have hatoms : atoms (xs ++ ',' :: ys) = atoms xs ++ .char ',' :: atoms ys :=
    atoms_append plain_comma fun hquote => absurd hquote h.quotes
  have hopened : (((atoms xs).foldl Cut.step Cut.start).step (.char ',')).opened = [] := h.brackets
  rw [splitTopLevel, hatoms, List.foldl_append, List.foldl_cons, Cut.finish_foldl_of_opened hopened rfl,
    splitTopLevel_eq ys]
  rfl

/-- Lines that are one part each and leave nothing open are the parts of what is put together
from them. -/
theorem splitTopLevel_joinWith {lines : List (List Char)} (hne : lines ≠ [])
    (h : ∀ line ∈ lines, Enclosed line ∧ splitTopLevel line = [line]) :
    splitTopLevel (Text.joinWith [','] lines) = lines := by
  induction lines with
  | nil => exact absurd rfl hne
  | cons line lines ih =>
    obtain ⟨⟨henclosed, hpart⟩, hlines⟩ := List.forall_mem_cons.1 h
    cases lines with
    | nil => exact hpart
    | cons next lines =>
      have hjoin : Text.joinWith [','] (line :: next :: lines) =
          line ++ ',' :: Text.joinWith [','] (next :: lines) := by simp [Text.joinWith]
      rw [hjoin, henclosed.splitTopLevel_append, hpart, ih (List.cons_ne_nil next lines) hlines,
        List.singleton_append]

/-! ## Editing -/

theorem decodeArrayLines_encodeArrayLines {cs : List Char} (hne : cs ≠ []) :
    decodeArrayLines (encodeArrayLines cs) =
      Text.joinWith ['\n'] (splitTopLevel (Text.joinWith [','] (Text.splitOn '\n' cs))) := by
  rw [encodeArrayLines, if_neg hne, decodeArrayLines, List.cons_append, if_neg (List.cons_ne_nil _ _),
    stripBrackets_brackets]

theorem not_mem_splitTopLevel {lines : List (List Char)} (h : ∀ line ∈ lines, '\n' ∉ line) :
    ∀ part ∈ splitTopLevel (Text.joinWith [','] lines), '\n' ∉ part := by
  intro part hpart hmem
  have hjoined : '\n' ∈ Text.joinWith [','] lines := by
    rw [← joinWith_splitTopLevel (Text.joinWith [','] lines)]
    exact (Text.infix_joinWith hpart).subset hmem
  rcases Text.mem_joinWith hjoined with hcomma | ⟨line, hline, hmem⟩
  · exact absurd (List.mem_singleton.1 hcomma) (by decide)
  · exact h line hline hmem

/-- A list that was kept is edited and kept as it is. -/
theorem encodeArrayLines_decodeArrayLines (cs : List Char) :
    encodeArrayLines (decodeArrayLines (encodeArrayLines cs)) = encodeArrayLines cs := by
  by_cases hne : cs = []
  · rw [hne]
    rfl
  have hlines : ∀ line ∈ Text.splitOn '\n' cs, '\n' ∉ line := fun line hline hmem =>
    (Text.mem_of_mem_splitOn hline '\n' hmem).1 rfl
  have hparts : splitTopLevel (Text.joinWith [','] (Text.splitOn '\n' cs)) ≠ [] := by
    rw [splitTopLevel_eq]
    simpa using cuts_ne_nil [] _
  have hsplit : Text.splitOn '\n' (decodeArrayLines (encodeArrayLines cs)) =
      splitTopLevel (Text.joinWith [','] (Text.splitOn '\n' cs)) := by
    rw [decodeArrayLines_encodeArrayLines hne]
    exact Text.splitOn_joinWith hparts (not_mem_splitTopLevel hlines)
  have hjoined : Text.joinWith [','] (Text.splitOn '\n' (decodeArrayLines (encodeArrayLines cs))) =
      Text.joinWith [','] (Text.splitOn '\n' cs) := by
    rw [hsplit, joinWith_splitTopLevel]
  -- The lines are not lost: with one empty line alone the text would have been empty.
  have hdecoded : decodeArrayLines (encodeArrayLines cs) ≠ [] := by
    intro hnil
    rw [hnil] at hjoined
    have hempty : Text.joinWith [','] (Text.splitOn '\n' cs) = [] := hjoined.symm
    obtain ⟨line, lines, hcons⟩ := List.exists_cons_of_ne_nil (Text.splitOn_ne_nil '\n' cs)
    rw [hcons, Text.joinWith_cons, List.append_eq_nil_iff] at hempty
    have hback := Text.joinWith_splitOn '\n' cs
    cases lines with
    | nil =>
      rw [hcons, hempty.1] at hback
      exact hne hback.symm
    | cons next lines => cases hempty.2
  rw [encodeArrayLines, if_neg hdecoded, hjoined, encodeArrayLines, if_neg hne]

/-- Keeping a text as a list loses nothing that a list can hold: a list is edited and kept as
it is, and lines that are one part each and leave nothing open come back as they were.  For
a text is put together from its parts, and is cut at every comma behind a text that leaves
nothing open. -/
theorem arrayLines_lossless :
    (∀ cs, encodeArrayLines (decodeArrayLines (encodeArrayLines cs)) = encodeArrayLines cs) ∧
      (∀ cs, (∀ line ∈ Text.splitOn '\n' cs, Enclosed line ∧ splitTopLevel line = [line]) →
        decodeArrayLines (encodeArrayLines cs) = cs) ∧
      (∀ cs, Text.joinWith [','] (splitTopLevel cs) = cs) ∧
      ∀ xs ys, Enclosed xs → splitTopLevel (xs ++ ',' :: ys) = splitTopLevel xs ++ splitTopLevel ys := by
  refine ⟨encodeArrayLines_decodeArrayLines, fun cs h => ?_, joinWith_splitTopLevel,
    fun xs ys h => h.splitTopLevel_append ys⟩
  by_cases hne : cs = []
  · rw [hne]
    rfl
  · rw [decodeArrayLines_encodeArrayLines hne, splitTopLevel_joinWith (Text.splitOn_ne_nil '\n' cs) h,
      Text.joinWith_splitOn]

/-- Commas inside of pairs and literals, closing brackets that close nothing, blank lines. -/
def nestedLines : List Char := "f(1,\"x\\\",y\")\n\n(],)\x7d\n]z\n".toList

theorem arrayLines_lossless_nestedLines :
    (∀ line ∈ Text.splitOn '\n' nestedLines, Enclosed line ∧ splitTopLevel line = [line]) ∧
      decodeArrayLines (encodeArrayLines nestedLines) = nestedLines := by
  have hlines : ∀ line ∈ Text.splitOn '\n' nestedLines, Enclosed line ∧ splitTopLevel line = [line] := by
    decide +kernel
  exact ⟨hlines, arrayLines_lossless.2.1 nestedLines hlines⟩

/-- Two lines that have to stay together are one line afterwards. -/
example : decodeArrayLines (encodeArrayLines "(a\nb)".toList) = "(a,b)".toList := by decide +kernel

end Field
end JobPipeline
