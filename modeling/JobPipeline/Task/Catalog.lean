import JobPipeline.Dict
import JobPipeline.Task.Kind

/-
The catalog: what is known of each kind of task.

One description per kind holds its label and its fields in the order in which
they are written.  Compiling reads the styles, validation the rules, and a new
task starts from the defaults.
-/
namespace JobPipeline

/-- Grouping of the kinds in a palette. -/
inductive TaskCategory where
  | network
  | parsing
  | math
  | aggregation
  | chain
  | logic
  | text
deriving DecidableEq, Repr

def TaskCategory.name : TaskCategory → String
  | .network => "network"
  | .parsing => "parsing"
  | .math => "math"
  | .aggregation => "aggregation"
  | .chain => "chain"
  | .logic => "logic"
  | .text => "text"

/-- How a field value is written into the spec text. -/
inductive FieldStyle where
  /-- Without quotes. -/
  | bare
  /-- Trimmed and quoted. -/
  | quoted
  /-- Quoted, without the blanks outside of string literals. -/
  | body
  /-- Quoted with all its blanks. -/
  | escaped
  /-- A list of the field's items. -/
  | array
  /-- A list of the field's items, or of the incoming tasks when it has none. -/
  | incomingArray
deriving DecidableEq, Repr

namespace FieldStyle

def isArray : FieldStyle → Bool
  | .array | .incomingArray => true
  | _ => false

def name : FieldStyle → String
  | .bare => "bare"
  | .quoted => "quoted"
  | .body => "body"
  | .escaped => "escaped"
  | .array => "array"
  | .incomingArray => "incoming_array"

def all : List FieldStyle := [.bare, .quoted, .body, .escaped, .array, .incomingArray]

def ofName? (name : String) : Option FieldStyle := all.find? fun style => style.name = name

end FieldStyle

/-- What a field value has to satisfy. -/
inductive FieldRule where
  | free
  | nonEmpty
  /-- A twenty-byte address in hexadecimal digits, or a variable token. -/
  | address
deriving DecidableEq, Repr

def FieldRule.name : FieldRule → String
  | .free => "optional"
  | .nonEmpty => "non_empty"
  | .address => "address"

structure FieldLayout where
  key : String
  style : FieldStyle
  default : String
  rule : FieldRule
  /-- A blank value leaves out the whole attribute. -/
  omitWhenEmpty : Bool
deriving DecidableEq, Repr

namespace FieldLayout

def of (key : String) (style : FieldStyle) : FieldLayout := ⟨key, style, "", .free, false⟩

def quoted (key : String) : FieldLayout := of key .quoted

def required (key : String) : FieldLayout := { quoted key with rule := .nonEmpty }

def address (key : String) : FieldLayout := { quoted key with rule := .address }

def startingAt (default : String) (layout : FieldLayout) : FieldLayout :=
  { layout with default := default }

end FieldLayout

structure TaskDescription where
  kind : TaskKind
  label : String
  category : TaskCategory
  summary : String
  fields : List FieldLayout
deriving DecidableEq, Repr

namespace TaskKind

open FieldLayout in
/-- The fields of a kind in the order in which they are written. -/
def fields : TaskKind → List FieldLayout
  | .http => [(of "method" .bare).startingAt "GET", required "url", of "requestData" .body]
  | .bridge => [required "name", of "requestData" .body, (quoted "async").startingAt "no"]
  | .jsonParse => [of "data" .body, required "path"]
  | .cborParse => [required "data", (quoted "mode").startingAt "diet"]
  | .ethTx => [address "to", required "data"]
  | .ethCall => [address "contract", required "data"]
  | .sum => [of "values" .array, { of "allowedFaults" .bare with omitWhenEmpty := true }]
  | .multiply => [quoted "input", required "times"]
  | .divide => [quoted "input", required "divisor", quoted "precision"]
  | .any => []
  | .mean => [of "values" .incomingArray, (of "precision" .bare).startingAt "2"]
  | .mode => [of "values" .incomingArray]
  | .median => [of "values" .incomingArray]
  | .ethAbiDecodeLog => [required "abi", quoted "data", quoted "topics"]
  | .ethAbiDecode => [required "abi", quoted "data"]
  | .ethAbiEncode => [required "abi", of "data" .escaped]
  | .lessThan => [required "left", required "right"]
  | .length => [required "input"]
  | .lookup => [required "key"]
  | .uppercase => [quoted "input"]
  | .lowercase => [quoted "input"]
  | .merge => [quoted "left", quoted "right"]

def label : TaskKind → String
  | .http => "HTTP"
  | .bridge => "Bridge"
  | .jsonParse => "JSON Parse"
  | .cborParse => "CBOR Parse"
  | .ethTx => "ETH Tx"
  | .ethCall => "ETH Call"
  | .sum => "Sum"
  | .multiply => "Multiply"
  | .divide => "Divide"
  | .any => "Any"
  | .mean => "Mean"
  | .mode => "Mode"
  | .median => "Median"
  | .ethAbiDecodeLog => "ABI Decode Log"
  | .ethAbiDecode => "ABI Decode"
  | .ethAbiEncode => "ABI Encode"
  | .lessThan => "Less Than"
  | .length => "Length"
  | .lookup => "Lookup"
  | .uppercase => "Uppercase"
  | .lowercase => "Lowercase"
  | .merge => "Merge"

def category : TaskKind → TaskCategory
  | .http | .bridge => .network
  | .jsonParse | .cborParse => .parsing
  | .ethTx | .ethCall | .ethAbiDecodeLog | .ethAbiDecode | .ethAbiEncode => .chain
  | .sum | .any | .mean | .mode | .median => .aggregation
  | .multiply | .divide => .math
  | .lessThan | .length | .lookup => .logic
  | .uppercase | .lowercase | .merge => .text

def summary : TaskKind → String
  | .http => "Fetch a URL"
  | .bridge => "Call an external adapter"
  | .jsonParse => "Extract a value from JSON by path"
  | .cborParse => "Decode CBOR request data"
  | .ethTx => "Send a transaction"
  | .ethCall => "Call a contract read method"
  | .sum => "Add a list of values"
  | .multiply => "Multiply input by a factor"
  | .divide => "Divide input by a divisor"
  | .any => "Pick any non-error input"
  | .mean => "Average of the inputs"
  | .mode => "Most common input"
  | .median => "Median of the inputs"
  | .ethAbiDecodeLog => "Decode an event log"
  | .ethAbiDecode => "Decode ABI-encoded bytes"
  | .ethAbiEncode => "Encode values with an ABI"
  | .lessThan => "Compare two values"
  | .length => "Length of a byte string"
  | .lookup => "Read a key from a map"
  | .uppercase => "Uppercase a string"
  | .lowercase => "Lowercase a string"
  | .merge => "Merge two maps"

def describe (kind : TaskKind) : TaskDescription :=
  ⟨kind, kind.label, kind.category, kind.summary, kind.fields⟩

/-- The field values a new task starts from. -/
def defaults (kind : TaskKind) : Dict String :=
  Dict.ofList (kind.fields.map fun f => (f.key, f.default))

end TaskKind
end JobPipeline
