import JobPipeline.Store.Basic

/-
Loading a store from its folder.

The files are read one after another, in the order in which the folders list
them.  A file that is no stored version is passed over; one that cannot be read
ends the loading, and what has been read by then stays in the store as it came.
-/
namespace JobPipeline

namespace Store

/-- A file of this name holds a version: it ends in `.json` behind a name. -/
def isVersionFile (name : String) : Bool :=
  match (Text.splitOn '.' name.toList).reverse with
  | last :: stem => last = "json".toList && stem ≠ [] && stem ≠ [[]]
  | [] => false

/-- What reading an item of a spec's folder gives. -/
def reading : DiskItem → Except DiskFault String
  | .file content => .ok content
  | .folder _ => .error .isFolder

/-- What reading the version files of one item of the store's folder gives. -/
def readingsOf : DiskItem → List (Except DiskFault String)
  | .file _ => []
  | .folder items => (items.filter fun i => isVersionFile i.1).map fun i => reading i.2

/-- Adds the versions that were read, up to the first failure.  Answers with how
many there are. -/
def addAll : List (Except DiskFault String) → (count : Nat) → Store → Except DiskFault Nat × Store
  | [], count, s => (.ok count, s)
  | .error fault :: _, _, s => (.error fault, s)
  | .ok text :: rest, count, s =>
    match SpecVersion.ofText? text with
    | none => addAll rest count s
    | some v => addAll rest (count + 1) (s.push v)

/-- The versions without those that repeat the number of the one before them. -/
def withoutRepeats : List SpecVersion → List SpecVersion
  | [] => []
  | v :: rest =>
    match withoutRepeats rest with
    | [] => [v]
    | w :: more => if v.version = w.version then v :: more else v :: w :: more

/-- Versions by number; of equal numbers the first. -/
def arranged (versions : List SpecVersion) : List SpecVersion :=
  withoutRepeats (versions.mergeSort fun v w => v.version ≤ w.version)

/-- Loads what the files hold, in their order. -/
def loadAll (s : Store) (readings : List (Except DiskFault String)) :
    Except DiskFault Nat × Store :=
  match addAll readings 0 s with
  | (.error fault, s) => (.error fault, s)
  | (.ok count, s) => (.ok count, { s with specs := s.specs.map arranged })

/-- Loads every version that lies in the store's folder. -/
def load (s : Store) (disk : Disk) : Except JobError Nat × Store :=
  match s.folder with
  | none => (.ok 0, s)
  | some folder =>
    if disk.contains folder then
      match disk.list folder with
      | .error fault => (.error (.inputOutput fault), s)
      | .ok items =>
        match s.loadAll (items.flatMap fun i => readingsOf i.2) with
        | (.error fault, s) => (.error (.inputOutput fault), s)
        | (.ok count, s) => (.ok count, s)
    else (.ok 0, s)

end Store
end JobPipeline
