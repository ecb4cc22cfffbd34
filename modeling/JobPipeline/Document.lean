import JobPipeline.Field.Body
import JobPipeline.Job.Basic
import JobPipeline.Toml.Escape

/-
The spec text of a job, line by line.

Compiling never fails and looks at nothing but the job: a value that breaks its
rule still gives a complete line, with the flag that says so.
-/
namespace JobPipeline

structure DocumentLine where
  text : String
  /-- Whether the field or task that the line belongs to is valid. -/
  valid : Option Bool
  /-- The line is part of the pipeline text inside the spec. -/
  inBody : Bool
deriving DecidableEq, Repr

abbrev Document := List DocumentLine

namespace Document

def joined (lines : Document) : String :=
  String.intercalate "\n" (lines.map DocumentLine.text)

def text (doc : Document) : String := doc.joined

def source (doc : Document) : String := joined (doc.filter DocumentLine.inBody)

def isValid (doc : Document) : Bool := doc.all fun line => line.valid != some false

end Document

def preambleString (s : String) : String :=
  String.ofList ('"' :: Toml.escape s.toList ++ ['"'])

def preambleLine (key value : String) (valid : Option Bool) : DocumentLine :=
  ⟨key ++ " = " ++ value, valid, false⟩

namespace JobConfig

def textLine (key : String) : Option String → List DocumentLine
  | none => []
  | some s => if s = "" then [] else [preambleLine key (preambleString s) none]

def specificLine (config : JobConfig) (layout : JobFieldLayout) : List DocumentLine :=
  let (value, valid) := match config.specifics.find? layout.key with
    | some field => (Text.trimmed field.value, field.valid)
    | none => ("", false)
  let line := fun text => [preambleLine layout.key text (some valid)]
  match layout.style with
  | .cronSchedule => line (preambleString ("CRON_TZ=UTC " ++ value))
  | .quoted => line (preambleString value)
  | .quotedOptional => if value = "" then [] else line (preambleString value)
  | .bare => if value = "" then [] else line value

def preamble (config : JobConfig) : List DocumentLine :=
  [preambleLine "type" (preambleString config.type.name) none,
    preambleLine "schemaVersion" "1" none] ++
  textLine "name" config.name ++
  textLine "externalJobId" config.externalId ++
  (match config.gasLimit with
    | some n => [preambleLine "gasLimit" (preambleString (toString n)) none]
    | none => []) ++
  textLine "maxTaskDuration" config.maxTaskDuration ++
  (match config.forwardingAllowed with
    | some b => [preambleLine "forwardingAllowed" (if b then "true" else "false") none]
    | none => []) ++
  config.type.fields.flatMap config.specificLine

end JobConfig

def isBareChar (c : Char) : Bool :=
  c.isAlphanum || c == '_' || c == '.' || c == '-' || c == '+' || c == '$' || c == '(' || c == ')'

def isBareLiteral (cs : List Char) : Bool := cs ≠ [] && cs.all isBareChar

namespace TaskGraph

/-- An array item; one that is the name of a task becomes a token. -/
def element (g : TaskGraph) (item : List Char) : List Char :=
  let name := String.ofList item
  if Identifier.isValid name && g.hasName name then '$' :: '(' :: item ++ [')'] else item

def elements (g : TaskGraph) (raw : List Char) : List (List Char) :=
  (Field.arrayItems raw).map g.element

end TaskGraph

namespace FieldLayout

/-- The text that is written for a field: the default stands in for a blank. -/
def effective (layout : FieldLayout) (node : Node) : String :=
  let raw := node.field layout.key
  if Text.blank raw && layout.default ≠ "" then layout.default else raw

def inQuotes (cs : List Char) : List Char := '"' :: Field.escapeQuoted cs ++ ['"']

def inAngles (items : List (List Char)) : List Char := '<' :: Field.renderArray items ++ ['>']

def written (layout : FieldLayout) (node : Node) (g : TaskGraph) : List Char :=
  let raw := (layout.effective node).toList
  match layout.style with
  | .bare =>
    let value := Text.trim raw
    if isBareLiteral value then value else inQuotes value
  | .quoted => inQuotes (Text.trim raw)
  | .body => inQuotes (Field.collapseBody raw)
  | .escaped => inQuotes raw
  | .array => inAngles (g.elements raw)
  | .incomingArray =>
    match g.elements raw with
    | [] => inAngles (node.incoming.map fun name => '$' :: '(' :: name.toList ++ [')'])
    | items => inAngles items

def attribute? (layout : FieldLayout) (node : Node) (g : TaskGraph) : Option (List Char) :=
  if layout.omitWhenEmpty && Text.blank (layout.effective node) then none
  else some (layout.key.toList ++ '=' :: layout.written node g)

end FieldLayout

namespace Node

def bodyLine (text : List Char) (valid : Option Bool) : DocumentLine :=
  ⟨String.ofList text, valid, true⟩

/-- The lines of attributes, the last of which closes the statement.  An
attribute that spans several lines keeps its line breaks. -/
def attributeLines (node : Node) : List (List Char) → List DocumentLine
  | [] => []
  | first :: rest =>
    let indent := List.replicate (node.name.utf8ByteSize + 2) ' '
    let close := if rest = [] then [']'] else []
    (Text.splitOn '\n' (indent ++ first ++ close)).map
      (fun line => bodyLine line (some node.isValid)) ++ node.attributeLines rest

/-- The statement of a task:

    fetch [type="http"
           method=GET
           url="https://x/y"]
-/
def block (node : Node) (g : TaskGraph) : List DocumentLine :=
  let head := node.name.toList ++ " [type=\"".toList ++ node.kind.name.toList ++ ['"']
  match node.kind.fields.filterMap fun layout => layout.attribute? node g with
  | [] => [bodyLine (head ++ [']']) (some node.isValid)]
  | attributes => bodyLine head (some node.isValid) :: node.attributeLines attributes

end Node

namespace TaskGraph

def isWritten (g : TaskGraph) (edge : Edge) : Bool :=
  [edge.source, edge.target].all fun id => (g.node? id).any fun n => n.kind.isWritten

def edgeLine (edge : Edge) : DocumentLine := ⟨edge.sourceName ++ " -> " ++ edge.targetName, none, true⟩

/-- The lines of the pipeline text: the tasks, then the edges below an empty
line. -/
def bodyLines (g : TaskGraph) : List DocumentLine :=
  let tasks := (g.nodes.filter fun n => n.kind.isWritten).flatMap fun n => n.block g
  match g.edges.filter g.isWritten with
  | [] => tasks
  | edges => tasks ++ ⟨"", none, true⟩ :: edges.map edgeLine

def source (g : TaskGraph) : String := Document.joined g.bodyLines

end TaskGraph

namespace Job

def compile (job : Job) : Document :=
  job.config.preamble ++
    [⟨"", none, false⟩, ⟨"observationSource = \"\"\"", none, false⟩] ++
    job.graph.bodyLines ++ [⟨"\"\"\"", none, false⟩]

end Job
end JobPipeline
