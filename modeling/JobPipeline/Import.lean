import JobPipeline.Job.Basic
import JobPipeline.Source.Layout
import JobPipeline.Toml.Reader

/-
Reading a job back from its spec text.

The pipeline text is lifted out of the spec as it stands, before anything else
is read, so its escapes reach its own reader untouched.  The rest is a table of
fields.  A field that is missing, unknown or of the wrong type is left aside with
a warning; only a text that is no table at all, a job without a type, and a
broken pipeline text are errors.
-/
namespace JobPipeline

/-- A job that was read, with what was tolerated on the way. -/
structure ImportedJob where
  job : Job
  warnings : List String
deriving DecidableEq, Repr

namespace Import

def bodyKey : List Char := "observationSource".toList

def tripleQuote : List Char := ['"', '"', '"']

/-- The line begins the pipeline text: the key, an equals sign and three
quotes. -/
def opensBody (line : List Char) : Bool :=
  let afterEquals := (Text.afterMark? bodyKey (Text.trimStart line)).bind fun rest =>
    Text.afterMark? ['='] (Text.trimStart rest)
  afterEquals.any fun rest => (Text.afterMark? tripleQuote (Text.trimStart rest)).isSome

/-- A pipeline text without the line end that follows its opening quotes. -/
def withoutFirstLineEnd : List Char → List Char
  | '\r' :: '\n' :: rest => rest
  | '\n' :: rest => rest
  | cs => cs

/-- Looks for the line that begins the pipeline text; the lines above it are in
`above`.  Without a closing mark there is none. -/
def splitFrom (above : List (List Char)) : List (List Char) → Option (List Char × List Char)
  | [] => none
  | line :: below =>
    if opensBody line then
      match Text.aroundMark? tripleQuote (line ++ below.flatten) with
      | none => none
      | some (_, opened) =>
        (Text.aroundMark? tripleQuote opened).map fun (body, rest) =>
          (above.flatten ++ rest, withoutFirstLineEnd body)
    else splitFrom (above ++ [line]) below

/-- The spec without its pipeline text, and that text. -/
def split (cs : List Char) : List Char × Option (List Char) :=
  match splitFrom [] (Text.linesWithEnds cs) with
  | some (rest, body) => (rest, some body)
  | none => (cs, none)

abbrev Table := Dict Toml.Value

def text? : Toml.Value → Option String
  | .string s => some s
  | _ => none

def bool? : Toml.Value → Option Bool
  | .bool b => some b
  | _ => none

/-- A whole number of 64 bits, or the text of one. -/
def limit? : Toml.Value → Option Nat
  | .integer n => if 0 ≤ n then some n.toNat else none
  | .string s => Numeral.natural? Numeral.most64 (Text.trimmed s)
  | _ => none

/-- A field of the preamble, or a warning that says what it should be. -/
def field {α : Type} (table : Table) (key expected : String) (read : Toml.Value → Option α) :
    Option α × List String :=
  match table.find? key with
  | none => (none, [])
  | some value =>
    match read value with
    | some a => (some a, [])
    | none => (none, ["'" ++ key ++ "' should be " ++ expected ++ "; ignored"])

/-- The configuration with the fields that all types of job have. -/
def readPreamble (table : Table) (config : JobConfig) : JobConfig × List String :=
  let (name, w₁) := field table "name" "a string" text?
  let (externalId, w₂) := field table "externalJobId" "a string" text?
  let (gasLimit, w₃) := field table "gasLimit" "a non-negative integer" limit?
  let (maxTaskDuration, w₄) := field table "maxTaskDuration" "a string" text?
  let (forwardingAllowed, w₅) := field table "forwardingAllowed" "a boolean" bool?
  ({ config with name, externalId, gasLimit, maxTaskDuration, forwardingAllowed },
    w₁ ++ w₂ ++ w₃ ++ w₄ ++ w₅)

def zonePrefix : List Char := "CRON_TZ=UTC".toList

/-- A schedule without its time zone. -/
def withoutZone (s : String) : String :=
  match Text.afterMark? zonePrefix s.toList with
  | some rest => String.ofList (Text.trimStart rest)
  | none => s

/-- What a field of the job type is set to by a value. -/
def specificText? (style : JobFieldStyle) (value : Toml.Value) : Option String :=
  let text := match value with
    | .string s => some s
    | .integer n => some (toString n)
    | _ => none
  match style with
  | .cronSchedule => text.map withoutZone
  | _ => text

def readSpecific (table : Table) (config : JobConfig) (layout : JobFieldLayout) :
    JobConfig × List String :=
  match table.find? layout.key with
  | none =>
    (config,
      if layout.style = .cronSchedule then
        [config.type.name ++ " job has no " ++ layout.key]
      else [])
  | some value =>
    match specificText? layout.style value with
    | none =>
      (config, ["'" ++ layout.key ++ "' has unsupported value " ++ value.shown ++ "; ignored"])
    | some text =>
      (config.setSpecific layout.key text,
        if config.type.allows layout.key text then [] else ["'" ++ layout.key ++ "' is not valid"])

def readSpecifics (table : Table) : List JobFieldLayout → JobConfig → JobConfig × List String
  | [], config => (config, [])
  | layout :: rest, config =>
    let (config, warnings) := readSpecific table config layout
    let (config, more) := readSpecifics table rest config
    (config, warnings ++ more)

/-- Keys that the preamble of every job can have. -/
def commonKeys : List String :=
  ["type", "schemaVersion", "name", "externalJobId", "gasLimit", "maxTaskDuration",
    "forwardingAllowed", "observationSource"]

def unknownKeys (type : JobType) (table : Table) : List String :=
  table.keys.filter fun key =>
    !(commonKeys.contains key || type.fields.any fun layout => layout.key = key)

def typeOf (table : Table) : Except ImportFault JobType :=
  match (table.find? "type").bind text? with
  | none => .error .noType
  | some name =>
    match JobType.ofText? name with
    | none => .error (.unknownType name)
    | some type => .ok type

def readConfig (table : Table) (type : JobType) : JobConfig × List String :=
  let (config, w₁) := readPreamble table (JobConfig.ofType type)
  let (config, w₂) := readSpecifics table type.fields config
  (config,
    w₁ ++ w₂ ++ (unknownKeys type table).map fun key => "ignored unknown key '" ++ key ++ "'")

end Import

def Job.ofSpec (text : String) : Except JobError ImportedJob :=
  let (rest, body) := Import.split text.toList
  match Toml.read? (String.ofList rest) with
  | none => .error (.unimportable .invalidToml)
  | some table =>
    match Import.typeOf table with
    | .error fault => .error (.unimportable fault)
    | .ok type =>
      let (config, warnings) := Import.readConfig table type
      let body := match body with
        | some cs => some (String.ofList cs)
        | none => (table.find? "observationSource").bind Import.text?
      match body with
      | none => .ok ⟨⟨config, TaskGraph.empty⟩, warnings ++ ["job spec has no observationSource"]⟩
      | some source =>
        match TaskGraph.ofSource source with
        | .error error => .error error
        | .ok graph => .ok ⟨⟨config, graph⟩, warnings⟩

end JobPipeline
