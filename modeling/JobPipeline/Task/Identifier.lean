import JobPipeline.Text.Segment

/-
Names of tasks.
-/
namespace JobPipeline
namespace Identifier

/-- Words that begin a statement of the graph language, in any case. -/
def keywords : List String := ["node", "edge", "graph", "digraph", "subgraph", "strict"]

def isStart (c : Char) : Bool := c.isAlpha || c == '_'

def isRest (c : Char) : Bool := c.isAlphanum || c == '_'

/-- A letter or underscore, then letters, digits and underscores. -/
def isWord : List Char → Bool
  | [] => false
  | c :: cs => isStart c && cs.all isRest

def isKeyword (s : String) : Bool :=
  keywords.contains (String.ofList (Text.lowerAscii s.toList))

/-- A text that can name a task. -/
def isValid (s : String) : Bool := isWord s.toList && !isKeyword s

end Identifier
end JobPipeline
