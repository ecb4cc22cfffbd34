import JobPipeline.Field.Items
import JobPipeline.Field.Token
import JobPipeline.Json.Printer
import JobPipeline.Json.Reader
import JobPipeline.Task.Catalog

/-
Resolving field text against the values known so far.

A field that is exactly one token takes over the value itself, whatever its
type.  In other text a token is replaced by the text of its value.  A reference
that finds nothing gives null and never fails the field.
-/
namespace JobPipeline

/-- The values that tokens can refer to, by task name or variable space. -/
abbrev Vars := Dict Json

namespace Json

/-- Steps into a value: a key of an object, or a position in an array. -/
def child? (json : Json) (segment : String) : Option Json :=
  match json with
  | .object members => Entries.find? segment members
  | .array items => (Numeral.natural? Numeral.most64 segment).bind fun n => items[n]?
  | _ => none

/-- Follows a path from a value. -/
def descend? (json : Json) : List String → Option Json
  | [] => some json
  | segment :: path => (json.child? segment).bind fun child => child.descend? path

/-- A value inside of other text: a string as it is, all else as JSON. -/
def spliced : Json → String
  | .string s => s
  | json => json.compact

/-- A string that reads as JSON is the value it denotes. -/
def literal : Json → Json
  | .string s => (valueOf? s).getD (.string s)
  | json => json

end Json

namespace Vars

def lookup (vars : Vars) (r : Reference) : Option Json :=
  (vars.find? r.id).bind fun json => json.descend? r.path

/-- The text that takes a piece's place. -/
def splice (vars : Vars) : Piece → List Char
  | .plain c => [c]
  | .token r => ((vars.lookup r).getD .null).spliced.toList

def resolveText (vars : Vars) (text : String) : Json :=
  let plain := Field.unhighlight text.toList
  let ps := pieces plain
  match ps.filterMap Piece.reference? with
  | [] => .string (String.ofList plain)
  | [r] =>
    if ps.all fun p => p.text.all Text.isBlank || p.reference?.isSome then
      (vars.lookup r).getD .null
    else .string (String.ofList (ps.flatMap vars.splice))
  | _ => .string (String.ofList (ps.flatMap vars.splice))

/-- Resolves one item of an array: a quoted item is the text between its quotes,
any other may be a literal. -/
def resolveItem (vars : Vars) (item : List Char) : Json :=
  match Text.trim item with
  | '"' :: rest =>
    if rest.getLast? = some '"' then .string (String.ofList rest.dropLast)
    else (vars.resolveText (String.ofList ('"' :: rest))).literal
  | cs => (vars.resolveText (String.ofList cs)).literal

/-- Resolves a field by its style: arrays item by item, and unquoted text as the
literal it spells. -/
def resolveField (vars : Vars) (style : FieldStyle) (raw : String) : Json :=
  match style with
  | .array | .incomingArray =>
    .array ((Field.arrayItems (Field.unhighlight raw.toList)).map vars.resolveItem)
  | .bare => (vars.resolveText raw).literal
  | .quoted | .body | .escaped => vars.resolveText raw

end Vars
end JobPipeline
