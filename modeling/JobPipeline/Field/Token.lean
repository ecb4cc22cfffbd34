import JobPipeline.Text.Segment

/-
Variable tokens in field text.

A token is a dollar sign and, in parentheses, the name of a task or of a job
variable space, followed by the parts of a path: `$(fetch)`, `$(parse.data.0)`.
A text is read as a sequence of pieces, tokens and single characters, and all
that is done with tokens (marking, renaming, resolving) is done piece by piece.
-/
namespace JobPipeline

/-- What a token refers to. -/
structure Reference where
  id : String
  path : List String
deriving DecidableEq, Repr, Inhabited

namespace Reference

def body (r : Reference) : List Char :=
  Text.joinWith ['.'] (r.id.toList :: r.path.map String.toList)

def text (r : Reference) : List Char := '$' :: '(' :: r.body ++ [')']

def isBodyChar (c : Char) : Bool := c.isAlphanum || c == '_' || c == '.'

/-- An identifier starts with a letter or an underscore. -/
def isStartChar (c : Char) : Bool := c.isAlpha || c == '_'

/-- Reads what stands between the parentheses: an identifier, then path parts
behind points, none of them empty. -/
def ofBody? (cs : List Char) : Option Reference :=
  match Text.splitOn '.' cs with
  | id :: path =>
    if (id.head?.any isStartChar) ∧ path.all (· ≠ []) then
      some ⟨String.ofList id, path.map String.ofList⟩
    else none
  | [] => none

theorem body_of_ofBody? {cs : List Char} {r : Reference} (h : ofBody? cs = some r) :
    r.body = cs := by
  unfold ofBody? at h
  split at h
  · next id path heq =>
    split at h
    · simp only [Option.some.injEq] at h
      subst h
      simp only [body, String.toList_ofList, List.map_map]
      have : path.map (String.toList ∘ String.ofList) = path := by simp [Function.comp_def]
      rw [this, ← heq, Text.joinWith_splitOn]
    · simp at h
  · simp at h

/-- The token at the start of a text, and what follows it. -/
def scan? : List Char → Option (Reference × List Char)
  | '$' :: '(' :: cs =>
    match cs.dropWhile isBodyChar with
    | ')' :: rest => (ofBody? (cs.takeWhile isBodyChar)).map fun r => (r, rest)
    | _ => none
  | _ => none

theorem text_of_scan? {cs rest : List Char} {r : Reference} (h : scan? cs = some (r, rest)) :
    cs = r.text ++ rest := by
  unfold scan? at h
  split at h
  · next cs =>
    split at h
    · next tail heq =>
      obtain ⟨r', hr, hpair⟩ := Option.map_eq_some_iff.1 h
      simp only [Prod.mk.injEq] at hpair
      obtain ⟨rfl, rfl⟩ := hpair
      rw [text, body_of_ofBody? hr]
      conv => lhs; rw [← List.takeWhile_append_dropWhile (p := isBodyChar) (l := cs), heq]
      simp
    · simp at h
  · simp at h

theorem length_of_scan? {cs rest : List Char} {r : Reference}
    (h : scan? cs = some (r, rest)) : rest.length < cs.length := by
  rw [text_of_scan? h]
  simp only [text, List.length_append, List.length_cons]
  omega

end Reference

/-- A part of a field text: one character, or a whole token. -/
inductive Piece where
  | plain (c : Char)
  | token (r : Reference)
deriving DecidableEq, Repr

namespace Piece

def text : Piece → List Char
  | .plain c => [c]
  | .token r => r.text

def reference? : Piece → Option Reference
  | .plain _ => none
  | .token r => some r

end Piece

def pieces : List Char → List Piece
  | [] => []
  | c :: cs =>
    match _h : Reference.scan? (c :: cs) with
    | some (r, rest) => .token r :: pieces rest
    | none => .plain c :: pieces cs
termination_by cs => cs.length
decreasing_by
  · exact Reference.length_of_scan? _h
  · simp

/-- Nothing of the text is lost in its pieces. -/
theorem flatMap_text_pieces (cs : List Char) : (pieces cs).flatMap Piece.text = cs := by
  fun_induction pieces cs with
  | case1 => rfl
  | case2 c cs r rest h ih =>
    rw [List.flatMap_cons, ih, Piece.text, Reference.text_of_scan? h]
  | case3 c cs h ih => rw [List.flatMap_cons, ih, Piece.text]; rfl

namespace Field

/-- Length of a text in UTF-8. -/
def byteLength : List Char → Nat
  | [] => 0
  | c :: cs => c.utf8Size + byteLength cs

/-- Where the tokens of a sequence of pieces begin and end, in bytes from the
start of a text whose first bytes are already counted. -/
def spansFrom (offset : Nat) : List Piece → List (Nat × Nat)
  | [] => []
  | p :: ps =>
    let stop := offset + byteLength p.text
    match p with
    | .plain _ => spansFrom stop ps
    | .token _ => (offset, stop) :: spansFrom stop ps

def tokenSpans (cs : List Char) : List (Nat × Nat) := spansFrom 0 (pieces cs)

def references (cs : List Char) : List Reference := (pieces cs).filterMap Piece.reference?

def openMark : List Char := "<var>".toList

def closeMark : List Char := "</var>".toList

def unhighlight (cs : List Char) : List Char :=
  Text.removeAll closeMark (Text.removeAll openMark cs)

def markPiece : Piece → List Char
  | .plain c => [c]
  | .token r => openMark ++ r.text ++ closeMark

/-- The text with a mark around every token.  Marks that are there already are
taken out first, so marking twice is marking once. -/
def highlight (cs : List Char) : List Char := (pieces (unhighlight cs)).flatMap markPiece

/-- The references of a text that may be marked. -/
def findReferences (s : String) : List Reference := references (unhighlight s.toList)

def renamePiece (old new : String) : Piece → List Char
  | .plain c => [c]
  | .token r => if r.id = old then { r with id := new }.text else r.text

/-- The text with every token of one name pointing at another; paths stay. -/
def renameReferences (old new : String) (s : String) : String :=
  String.ofList ((pieces s.toList).flatMap (renamePiece old new))

end Field
end JobPipeline
