import JobPipeline.Document
import JobPipeline.Json.Record

/-
The JSON forms of a compiled document.
-/
namespace JobPipeline

open Json (record? needed? optional? string? bool? list?)

namespace DocumentLine

def toJson (line : DocumentLine) : Json :=
  .object [("value", .string line.text), ("valid", Json.ofOption Json.bool line.valid),
    ("isObservationSrc", .bool line.inBody)]

def scope : Json.Scope := .ofNames ["value", "valid", "isObservationSrc"]

def ofJson? (json : Json) : Option DocumentLine := do
  let members ← record? scope json
  return { text := ← needed? members "value" string?
           valid := ← optional? members "valid" bool?
           inBody := ← needed? members "isObservationSrc" bool? }

end DocumentLine

namespace Document

def scope : Json.Scope := .record [("lines", .each DocumentLine.scope)]

def ofJson? (json : Json) : Option Document := do
  let members ← record? scope json
  needed? members "lines" (list? DocumentLine.ofJson?)

end Document
end JobPipeline
