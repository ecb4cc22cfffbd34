import JobPipeline.Json.Record

/-
Where the two services of a job are found: one that makes plans, one that
evaluates tasks.
-/
namespace JobPipeline

open Json (record? given? string?)

structure ServiceAddress where
  base : String
  graphPath : String
  taskPath : String
deriving DecidableEq, Repr

namespace ServiceAddress

def standard : ServiceAddress := ⟨"http://localhost:6688", "/api/graph", "/api/task"⟩

def isSlash (c : Char) : Bool := c == '/'

/-- A base and a path with one slash between them. -/
def join (base path : String) : String :=
  String.ofList ((base.toList.reverse.dropWhile isSlash).reverse ++
    '/' :: path.toList.dropWhile isSlash)

def graphUrl (a : ServiceAddress) : String := join a.base a.graphPath

def taskUrl (a : ServiceAddress) : String := join a.base a.taskPath

def toJson (a : ServiceAddress) : Json :=
  .object [("baseUrl", .string a.base), ("graphPath", .string a.graphPath),
    ("taskPath", .string a.taskPath)]

def scope : Json.Scope := .ofNames ["baseUrl", "graphPath", "taskPath"]

def ofJson? (json : Json) : Option ServiceAddress := do
  let members ← record? scope json
  return { base := ← given? members "baseUrl" string? standard.base
           graphPath := ← given? members "graphPath" string? standard.graphPath
           taskPath := ← given? members "taskPath" string? standard.taskPath }

end ServiceAddress
end JobPipeline
