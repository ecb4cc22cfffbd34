import JobPipeline.Import
import JobPipeline.Proofs.Text.Marks

/-
The pipeline text is lifted out of a spec.

The lines above it do not open it, so the split is at the line that does.  What is
lifted out ends at the first three quotes behind that line: the whole pipeline text
if there are none in it, and else the part before them.
-/
namespace JobPipeline

namespace Text

theorem linesWithEnds_append {line : List Char} (h : '\n' ∉ line) (rest : List Char) :
    linesWithEnds (line ++ '\n' :: rest) = (line ++ ['\n']) :: linesWithEnds rest := by
  induction line with
  | nil => rw [List.nil_append, linesWithEnds, if_pos rfl, List.nil_append]
  | cons c line ih =>
    rw [List.mem_cons, not_or] at h
    rw [List.cons_append, linesWithEnds, if_neg (Ne.symm h.1), ih h.2]
    rfl

theorem linesWithEnds_flatMap {lines : List (List Char)} (h : ∀ line ∈ lines, '\n' ∉ line)
    (rest : List Char) :
    linesWithEnds ((lines.flatMap fun line => line ++ ['\n']) ++ rest) =
      (lines.map fun line => line ++ ['\n']) ++ linesWithEnds rest := by
  induction lines with
  | nil => rfl
  | cons line lines ih =>
    obtain ⟨hline, hlines⟩ := List.forall_mem_cons.1 h
    rw [List.flatMap_cons, List.append_assoc, List.append_assoc, List.singleton_append,
      linesWithEnds_append hline, ih hlines]
    rfl

end Text

namespace Import

/-- The line above the pipeline text. -/
def openingLine : List Char := "observationSource = \"\"\"".toList

theorem splitFrom_append {lines : List (List Char)} (h : ∀ line ∈ lines, opensBody line = false)
    (above rest : List (List Char)) :
    splitFrom above (lines ++ rest) = splitFrom (above ++ lines) rest := by
  induction lines generalizing above with
  | nil => rw [List.nil_append, List.append_nil]
  | cons line lines ih =>
    obtain ⟨hline, hlines⟩ := List.forall_mem_cons.1 h
    rw [List.cons_append, splitFrom, hline, if_neg (by decide), ih hlines, List.append_assoc,
      List.singleton_append]

theorem opensBody_openingLine : opensBody (openingLine ++ ['\n']) = true := by decide

theorem tripleQuote_eq : ∀ c ∈ tripleQuote, c = '"' :=
  fun _ hc => List.eq_of_mem_replicate (n := 3) hc

/-- The text from the opening line on, cut at its first two marks. -/
theorem splitFrom_openingLine (above : List (List Char)) (body : List Char) :
    splitFrom above ((openingLine ++ ['\n']) :: Text.linesWithEnds body) =
      (Text.aroundMark? tripleQuote ('\n' :: body)).map fun (inner, rest) =>
        (above.flatten ++ rest, withoutFirstLineEnd inner) := by
  have hopened : Text.aroundMark? tripleQuote (openingLine ++ ['\n'] ++ body) =
      some ("observationSource = ".toList, '\n' :: body) := by
    have hfirst : Text.aroundMark? tripleQuote (openingLine ++ ['\n']) =
        some ("observationSource = ".toList, ['\n']) := by decide
    exact Text.aroundMark?_append_of_some hfirst body
  rw [splitFrom, if_pos opensBody_openingLine, Text.flatten_linesWithEnds, hopened]

/-- What is lifted out of a spec, and what is left of it. -/
theorem split_eq {lines : List (List Char)} (hlines : ∀ line ∈ lines, '\n' ∉ line)
    (hopens : ∀ line ∈ lines, opensBody (line ++ ['\n']) = false) (body : List Char) :
    split ((lines.flatMap fun line => line ++ ['\n']) ++ (openingLine ++ '\n' :: body)) =
      match Text.aroundMark? tripleQuote ('\n' :: body) with
      | some (inner, rest) =>
        ((lines.flatMap fun line => line ++ ['\n']) ++ rest, some (withoutFirstLineEnd inner))
      | none =>
        ((lines.flatMap fun line => line ++ ['\n']) ++ (openingLine ++ '\n' :: body), none) := by
  have hline : '\n' ∉ openingLine := by decide
  have habove : ∀ line ∈ lines.map fun line => line ++ ['\n'], opensBody line = false := by
    intro line hmem
    obtain ⟨l, hl, rfl⟩ := List.mem_map.1 hmem
    exact hopens l hl
  rw [split, Text.linesWithEnds_flatMap hlines, Text.linesWithEnds_append hline,
    splitFrom_append habove, splitFrom_openingLine, List.nil_append, ← List.flatMap_def]
  cases Text.aroundMark? tripleQuote ('\n' :: body) <;> rfl

theorem aroundMark?_line (body : List Char) :
    Text.aroundMark? tripleQuote ('\n' :: body) =
      (Text.aroundMark? tripleQuote body).map fun (inner, rest) => ('\n' :: inner, rest) := by
  have hborder : ['\n'].getLast? ≠ some '"' ∨ body.head? ≠ some '"' := .inl (by decide)
  exact Text.aroundMark?_append_of_none tripleQuote_eq (by decide) hborder

/-- A body without three quotes in it is lifted out as it is. -/
theorem split_of_not_infix {lines : List (List Char)} (hlines : ∀ line ∈ lines, '\n' ∉ line)
    (hopens : ∀ line ∈ lines, opensBody (line ++ ['\n']) = false) {body : List Char}
    (hlast : body.getLast? ≠ some '"') (h : ¬tripleQuote <:+: body) :
    split ((lines.flatMap fun line => line ++ ['\n']) ++
        (openingLine ++ '\n' :: (body ++ tripleQuote))) =
      (lines.flatMap fun line => line ++ ['\n'], some body) := by
  have hnone : Text.aroundMark? tripleQuote body = none :=
    (Text.aroundMark?_eq_none_iff (by decide) body).2 h
  have hmark : Text.aroundMark? tripleQuote (body ++ tripleQuote) = some (body, []) := by
    have hself : Text.aroundMark? tripleQuote tripleQuote = some ([], []) := by decide
    rw [Text.aroundMark?_append_of_none tripleQuote_eq hnone (.inl hlast), hself]
    show some (body ++ [], _) = _
    rw [List.append_nil]
  rw [split_eq hlines hopens, aroundMark?_line, hmark]
  show (_ ++ [], _) = _
  rw [List.append_nil]
  rfl

/-- A body with three quotes in it is lifted out up to them. -/
theorem split_of_infix {lines : List (List Char)} (hlines : ∀ line ∈ lines, '\n' ∉ line)
    (hopens : ∀ line ∈ lines, opensBody (line ++ ['\n']) = false) {body inner rest : List Char}
    (h : Text.aroundMark? tripleQuote body = some (inner, rest)) :
    (split ((lines.flatMap fun line => line ++ ['\n']) ++
        (openingLine ++ '\n' :: (body ++ tripleQuote)))).2 = some inner := by
  have hmark := Text.aroundMark?_append_of_some h tripleQuote
  rw [split_eq hlines hopens, aroundMark?_line, hmark]
  rfl

end Import
end JobPipeline
