import JobPipeline.Text.Blank
import JobPipeline.Text.Segment

/-
The kinds of task a pipeline can have.  The list is closed: a spec that names
another kind is refused.
-/
namespace JobPipeline

inductive TaskKind where
  | http
  | bridge
  | jsonParse
  | cborParse
  | ethTx
  | ethCall
  | sum
  | multiply
  | divide
  | any
  | mean
  | mode
  | median
  | ethAbiDecodeLog
  | ethAbiDecode
  | ethAbiEncode
  | lessThan
  | length
  | lookup
  | uppercase
  | lowercase
  | merge
deriving DecidableEq, Repr, Inhabited

namespace TaskKind

/-- Every kind, in the order in which they are offered. -/
def all : List TaskKind :=
  [.http, .bridge, .jsonParse, .cborParse, .ethTx, .ethCall, .sum, .multiply, .divide, .any,
    .mean, .mode, .median, .ethAbiDecodeLog, .ethAbiDecode, .ethAbiEncode, .lessThan, .length,
    .lookup, .uppercase, .lowercase, .merge]

theorem mem_all (kind : TaskKind) : kind ∈ all := by cases kind <;> decide

def name : TaskKind → String
  | .http => "http"
  | .bridge => "bridge"
  | .jsonParse => "jsonparse"
  | .cborParse => "cborparse"
  | .ethTx => "ethtx"
  | .ethCall => "ethcall"
  | .sum => "sum"
  | .multiply => "multiply"
  | .divide => "divide"
  | .any => "any"
  | .mean => "mean"
  | .mode => "mode"
  | .median => "median"
  | .ethAbiDecodeLog => "ethabidecodelog"
  | .ethAbiDecode => "ethabidecode"
  | .ethAbiEncode => "ethabiencode"
  | .lessThan => "lessthan"
  | .length => "length"
  | .lookup => "lookup"
  | .uppercase => "uppercase"
  | .lowercase => "lowercase"
  | .merge => "merge"

def ofName? (name : String) : Option TaskKind := all.find? fun kind => kind.name = name

theorem ofName?_name (kind : TaskKind) : ofName? kind.name = some kind := by
  cases kind <;> decide

/-- The kind that a spec means: letters in any case, blanks around the name. -/
def ofText? (s : String) : Option TaskKind :=
  ofName? (String.ofList (Text.lowerAscii (Text.trim s.toList)))

/-- Evaluating the task touches the outside world. -/
def hasSideEffect : TaskKind → Bool
  | .http | .bridge | .ethCall | .ethTx => true
  | _ => false

/-- The task is written into the spec text.  A kind that is not is still read,
and adds nothing to what is written. -/
def isWritten : TaskKind → Bool
  | .uppercase | .lowercase | .merge => false
  | _ => true

end TaskKind
end JobPipeline
