import JobPipeline.Graph.Basic
import JobPipeline.Json.Record

/-
The JSON form of an edge.
-/
namespace JobPipeline

open Json (record? needed? string?)

namespace Edge

def toJson (edge : Edge) : Json :=
  .object [("id", .string edge.id), ("source", .string edge.source),
    ("target", .string edge.target), ("sourceCustomId", .string edge.sourceName),
    ("targetCustomId", .string edge.targetName)]

def scope : Json.Scope := .ofNames ["id", "source", "target", "sourceCustomId", "targetCustomId"]

def ofJson? (json : Json) : Option Edge := do
  let members ← record? scope json
  return { id := ← needed? members "id" string?
           source := ← needed? members "source" string?
           target := ← needed? members "target" string?
           sourceName := ← needed? members "sourceCustomId" string?
           targetName := ← needed? members "targetCustomId" string? }

end Edge
end JobPipeline
