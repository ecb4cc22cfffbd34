/-
Cutting a text at fixed marks and putting it together again.

All of it is on lists of characters: the laws are inductions on the list, and
a `String` is only opened once, by the function that needs its characters.
-/
namespace JobPipeline
namespace Text

/-- The parts between the occurrences of one character; a text without it is
its own single part, and the empty text has one empty part. -/
def splitOn (sep : Char) : List Char → List (List Char)
  | [] => [[]]
  | c :: cs =>
    if c = sep then [] :: splitOn sep cs
    else match splitOn sep cs with
      | [] => [[c]]
      | part :: parts => (c :: part) :: parts

theorem splitOn_ne_nil (sep : Char) (cs : List Char) : splitOn sep cs ≠ [] := by
  cases cs with
  | nil => simp [splitOn]
  | cons c cs =>
    rw [splitOn]
    split
    · simp
    · split <;> simp

/-- Parts laid one after another with a separator between them. -/
def joinWith (sep : List Char) : List (List Char) → List Char
  | [] => []
  | [part] => part
  | part :: next :: parts => part ++ sep ++ joinWith sep (next :: parts)

theorem joinWith_splitOn (sep : Char) (cs : List Char) :
    joinWith [sep] (splitOn sep cs) = cs := by
  induction cs with
  | nil => rfl
  | cons c cs ih =>
    rw [splitOn]
    cases h : splitOn sep cs with
    | nil => exact absurd h (splitOn_ne_nil sep cs)
    | cons part parts =>
      rw [h] at ih
      by_cases hc : c = sep
      · simp [hc, joinWith, ih]
      · cases parts with
        | nil => simp [hc, joinWith] at ih ⊢; exact ih
        | cons q qs => simp [hc, joinWith] at ih ⊢; exact ih

/-- What follows a mark at the very start of the text. -/
def afterMark? : List Char → List Char → Option (List Char)
  | [], cs => some cs
  | _ :: _, [] => none
  | m :: mark, c :: cs => if m = c then afterMark? mark cs else none

theorem afterMark?_eq_some {mark cs rest : List Char} :
    afterMark? mark cs = some rest ↔ cs = mark ++ rest := by
  induction mark generalizing cs with
  | nil => simp [afterMark?, eq_comm]
  | cons m mark ih =>
    cases cs with
    | nil => simp [afterMark?]
    | cons c cs =>
      by_cases h : m = c
      · simp [afterMark?, h, ih]
      · simp [afterMark?, h, Ne.symm h]

/-- The text before and after the first occurrence of a mark. -/
def aroundMark? (mark : List Char) : List Char → Option (List Char × List Char)
  | [] => if mark = [] then some ([], []) else none
  | c :: cs =>
    match afterMark? mark (c :: cs) with
    | some rest => some ([], rest)
    | none => (aroundMark? mark cs).map fun (before, rest) => (c :: before, rest)

/-- The text with every occurrence of a mark taken out, scanning from the left
and going on behind each occurrence. -/
def removeAll (mark : List Char) : List Char → List Char
  | [] => []
  | c :: cs =>
    match afterMark? mark (c :: cs) with
    | some _ => removeAll mark (cs.drop (mark.length - 1))
    | none => c :: removeAll mark cs
termination_by cs => cs.length
decreasing_by all_goals (simp only [List.length_cons, List.length_drop]; omega)

/-- The lines of a text, each with the line feed that ends it. -/
def linesWithEnds : List Char → List (List Char)
  | [] => []
  | c :: cs =>
    if c = '\n' then [c] :: linesWithEnds cs
    else match linesWithEnds cs with
      | [] => [[c]]
      | line :: lines => (c :: line) :: lines

theorem flatten_linesWithEnds (cs : List Char) : (linesWithEnds cs).flatten = cs := by
  induction cs with
  | nil => rfl
  | cons c cs ih =>
    rw [linesWithEnds]
    split
    · simp [ih]
    · split
      · next h => simp [h] at ih; simp [ih]
      · next h => rw [h] at ih; simpa using ih

/-- ASCII letters in lower case, every other character as it is. -/
def lowerAscii (cs : List Char) : List Char := cs.map Char.toLower

end Text
end JobPipeline
