import JobPipeline.Text.Blank

/-
Request bodies.

A body may be laid out over several lines.  Written into one attribute it loses
the blanks outside of its string literals and nothing else.
-/
namespace JobPipeline
namespace Field

/-- Where in a body a character stands. -/
inductive BodyState where
  | outside
  | inside
  /-- Behind a backslash in a literal. -/
  | escaped
deriving DecidableEq, Repr

def BodyState.next : BodyState → Char → BodyState
  | .outside, c => if c = '"' then .inside else .outside
  | .inside, c => if c = '\\' then .escaped else if c = '"' then .outside else .inside
  | .escaped, _ => .inside

def BodyState.keeps : BodyState → Char → Bool
  | .outside, c => !Text.isBlank c
  | _, _ => true

def collapseFrom : BodyState → List Char → List Char
  | _, [] => []
  | state, c :: cs =>
    if state.keeps c then c :: collapseFrom (state.next c) cs
    else collapseFrom (state.next c) cs

/-- A body without the blanks outside of its string literals. -/
def collapseBody (cs : List Char) : List Char := collapseFrom .outside cs

end Field
end JobPipeline
