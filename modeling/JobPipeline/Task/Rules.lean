import JobPipeline.Field.Token
import JobPipeline.Task.Catalog
import JobPipeline.Text.Blank

/-
Rules for the fields of a task.

A broken rule never stops anything: it is attached to the task, and the lines
written for the task carry the flag.
-/
namespace JobPipeline

/-- A complaint about one field of a task. -/
structure FieldError where
  field : String
  message : String
deriving DecidableEq, Repr

def FieldError.text (e : FieldError) : String := e.field ++ ": " ++ e.message

def isHexDigit (c : Char) : Bool :=
  c.isDigit || ('a' ≤ c && c ≤ 'f') || ('A' ≤ c && c ≤ 'F')

/-- `0x` and forty hexadecimal digits; the checksum that their case can carry is
not looked at. -/
def isAddress (s : String) : Bool :=
  match Text.trim s.toList with
  | '0' :: x :: digits => (x == 'x' || x == 'X') && digits.length == 40 && digits.all isHexDigit
  | _ => false

/-- Every closing angle bracket closes one opened before it, and none stays
open, when `depth` of them are open at the start. -/
def anglesCloseFrom : Nat → List Char → Bool
  | depth, [] => depth == 0
  | depth, c :: cs =>
    if c = '<' then anglesCloseFrom (depth + 1) cs
    else if c = '>' then
      match depth with
      | 0 => false
      | depth + 1 => anglesCloseFrom depth cs
    else anglesCloseFrom depth cs

/-- An array is written between angle brackets, which nest and know no quotes;
a text with other angle brackets cannot be written there. -/
def anglesBalanced (cs : List Char) : Bool := anglesCloseFrom 0 cs

/-- What a rule says of a trimmed value. -/
def FieldRule.complaint? (rule : FieldRule) (value : List Char) : Option String :=
  match rule with
  | .free => none
  | .nonEmpty => if value = [] then some "is required" else none
  | .address =>
    if value = [] then some "is required"
    else if (Field.references value).isEmpty && !isAddress (String.ofList value) then
      some "must be a valid address"
    else none

def FieldLayout.errors (layout : FieldLayout) (fields : Dict String) : List FieldError :=
  let value := Text.trim ((fields.find? layout.key).getD "").toList
  let broken := match layout.rule.complaint? value with
    | some message => [⟨layout.key, message⟩]
    | none => []
  let unbalanced :=
    if layout.style.isArray && !anglesBalanced value then
      [⟨layout.key, "must not contain unbalanced '<' or '>'"⟩]
    else []
  broken ++ unbalanced

/-- The complaints about a task's fields, in the order of the catalog. -/
def TaskKind.fieldErrors (kind : TaskKind) (fields : Dict String) : List FieldError :=
  kind.fields.flatMap fun layout => layout.errors fields

end JobPipeline
