import JobPipeline.Task.Identifier
import JobPipeline.Text.Segment

/-
The smallest parts of a spec text: what may stand between its words, and its
words.
-/
namespace JobPipeline
namespace Source

def isLineBreak (c : Char) : Bool := c == '\n' || c == '\r'

def isGap (c : Char) : Bool := c == ' ' || c == '\t' || isLineBreak c

/-- What follows the comment at the start of a text. -/
def afterComment? : List Char → Option (List Char)
  | '#' :: cs => some (cs.dropWhile fun c => !isLineBreak c)
  | '/' :: '/' :: cs => some (cs.dropWhile fun c => !isLineBreak c)
  | '/' :: '*' :: cs => (Text.aroundMark? ['*', '/'] cs).map (·.2)
  | _ => none

theorem length_aroundMark? {mark cs before rest : List Char}
    (h : Text.aroundMark? mark cs = some (before, rest)) : rest.length ≤ cs.length := by
  induction cs generalizing before with
  | nil =>
    unfold Text.aroundMark? at h
    split at h
    · simp only [Option.some.injEq, Prod.mk.injEq] at h
      simp [← h.2]
    · simp at h
  | cons c cs ih =>
    unfold Text.aroundMark? at h
    split at h
    · next r hr =>
      simp only [Option.some.injEq, Prod.mk.injEq] at h
      rw [Text.afterMark?_eq_some.1 hr, ← h.2]
      simp
    · obtain ⟨⟨b, r⟩, hbr, hpair⟩ := Option.map_eq_some_iff.1 h
      simp only [Prod.mk.injEq] at hpair
      obtain ⟨-, rfl⟩ := hpair
      exact Nat.le_succ_of_le (ih hbr)

theorem length_dropWhile_le {α : Type} (p : α → Bool) (l : List α) :
    (l.dropWhile p).length ≤ l.length := (List.dropWhile_sublist p).length_le

theorem length_afterComment? {cs rest : List Char} (h : afterComment? cs = some rest) :
    rest.length < cs.length := by
  unfold afterComment? at h
  split at h
  · simp only [Option.some.injEq] at h
    rw [← h, List.length_cons]
    exact Nat.lt_succ_of_le (length_dropWhile_le _ _)
  · simp only [Option.some.injEq] at h
    rw [← h, List.length_cons, List.length_cons]
    exact Nat.lt_succ_of_le (Nat.le_succ_of_le (length_dropWhile_le _ _))
  · obtain ⟨⟨b, r⟩, hbr, rfl⟩ := Option.map_eq_some_iff.1 h
    simp only [List.length_cons]
    have := length_aroundMark? hbr
    omega
  · simp at h

/-- The text behind the gaps and comments at its start. -/
def skipGaps : List Char → List Char
  | [] => []
  | c :: cs =>
    if isGap c then skipGaps cs
    else match _h : afterComment? (c :: cs) with
      | some rest => skipGaps rest
      | none => c :: cs
termination_by cs => cs.length
decreasing_by
  · simp
  · exact length_afterComment? _h

def identifier? : List Char → Option (String × List Char)
  | [] => none
  | c :: cs =>
    if Identifier.isStart c then
      some (String.ofList (c :: cs.takeWhile Identifier.isRest), cs.dropWhile Identifier.isRest)
    else none

/-- The inside of a quoted value whose opening quote has been read, escapes
still in it, and what follows the closing quote. -/
def quotedInner? : List Char → Option (List Char × List Char)
  | [] => none
  | '\\' :: c :: cs => (quotedInner? cs).map fun (inner, rest) => ('\\' :: c :: inner, rest)
  | c :: cs =>
    if c = '"' then some ([], cs)
    else (quotedInner? cs).map fun (inner, rest) => (c :: inner, rest)

/-- The inside of a value in angle brackets, read up to the bracket that closes
it, with `depth` further brackets open. -/
def anglesInner? : (depth : Nat) → List Char → Option (List Char × List Char)
  | _, [] => none
  | depth, c :: cs =>
    let take := fun d => (anglesInner? d cs).map fun (inner, rest) => (c :: inner, rest)
    if c = '<' then take (depth + 1)
    else if c = '>' then
      match depth with
      | 0 => some ([], cs)
      | d + 1 => take d
    else take depth

/-- The characters of a value without quotes. -/
def isBareChar (c : Char) : Bool :=
  c.isAlphanum || c == '_' || c == '.' || c == '-' || c == '+' || c == '$' || c == '(' || c == ')'

def bare? (cs : List Char) : Option (List Char × List Char) :=
  match cs.takeWhile isBareChar with
  | [] => none
  | value => some (value, cs.dropWhile isBareChar)

/-- What follows a word at the start of a text, in any case of letters. -/
def afterWord? (word : String) (cs : List Char) : Option (List Char) :=
  if Text.lowerAscii (cs.take word.length) = word.toList then some (cs.drop word.length) else none

end Source
end JobPipeline
