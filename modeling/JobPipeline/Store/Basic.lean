import JobPipeline.Calendar.Timestamp
import JobPipeline.Disk
import JobPipeline.Snapshot

/-
A store of specs that keeps every version that was saved.

The versions of a spec are numbered from one.  A store can lie on a disk, where
version 3 of the spec `feed` is the file `feed/v3.json`; it is then written
through, and read only when it is loaded.
-/
namespace JobPipeline

open Json (record? needed? string? word32?)

/-- One saved version of a spec. -/
structure SpecVersion where
  spec : String
  version : Nat
  savedAt : Timestamp
  snapshot : Snapshot
deriving DecidableEq, Repr

namespace SpecVersion

def toJson (v : SpecVersion) : Json :=
  .object [("specId", .string v.spec), ("version", .ofNat v.version),
    ("savedAt", .string v.savedAt.text), ("snapshot", v.snapshot.toJson)]

def timestamp? (json : Json) : Option Timestamp := (string? json).bind Timestamp.ofText?

def scope : Json.Scope :=
  .record [("specId", .everything), ("version", .everything), ("savedAt", .everything),
    ("snapshot", Snapshot.scope)]

def ofJson? (json : Json) : Option SpecVersion := do
  let members ← record? scope json
  return { spec := ← needed? members "specId" string?
           version := ← needed? members "version" word32?
           savedAt := ← needed? members "savedAt" timestamp?
           snapshot := ← needed? members "snapshot" Snapshot.ofJson? }

def text (v : SpecVersion) : String := v.toJson.pretty 0

def ofText? : (text : String) → Option SpecVersion := Json.readAs? scope ofJson?

def fileName (v : SpecVersion) : String := "v" ++ toString v.version ++ ".json"

end SpecVersion

/-- What a listing says of a spec. -/
structure SpecSummary where
  spec : String
  name : Option String
  latest : Nat
  versions : Nat
  updatedAt : Timestamp
deriving DecidableEq, Repr

structure Store where
  /-- The versions of each spec, the latest last. -/
  specs : Dict (List SpecVersion)
  /-- The folder that the store lies in, if it lies on a disk. -/
  folder : Option String
deriving DecidableEq, Repr

namespace Store

def inMemory : Store := ⟨Dict.empty, none⟩

def inFolder (path : String) : Store := ⟨Dict.empty, some path⟩

def versionsOf (s : Store) (spec : String) : List SpecVersion := (s.specs.find? spec).getD []

def latest? (s : Store) (spec : String) : Option SpecVersion := (s.versionsOf spec).getLast?

def get? (s : Store) (spec : String) (version : Nat) : Option SpecVersion :=
  (s.versionsOf spec).find? fun v => v.version = version

def contains (s : Store) (spec : String) : Bool := s.specs.contains spec

def list (s : Store) : List SpecSummary :=
  s.specs.entries.filterMap fun (spec, versions) =>
    versions.getLast?.map fun latest =>
      ⟨spec, latest.snapshot.config.name, latest.version, versions.length, latest.savedAt⟩

/-- Puts a version behind the others of its spec. -/
def push (s : Store) (v : SpecVersion) : Store :=
  { s with specs := s.specs.insert v.spec (s.versionsOf v.spec ++ [v]) }

/-- The text can name a spec: a task name, in which hyphens may stand for
underscores. -/
def isName (spec : String) : Bool :=
  Identifier.isValid (String.ofList (spec.toList.map fun c => if c = '-' then '_' else c))

def nextVersion (s : Store) (spec : String) : Nat :=
  match s.latest? spec with
  | some v => v.version + 1
  | none => 1

def writeVersion (s : Store) (v : SpecVersion) (disk : Disk) : Except DiskFault Unit × Disk :=
  match s.folder with
  | none => (.ok (), disk)
  | some folder =>
    let path := Disk.join folder v.spec
    match disk.makeFolders path with
    | (.error fault, disk) => (.error fault, disk)
    | (.ok (), disk) =>
      match disk.write (Disk.join path v.fileName) v.text with
      | .error fault => (.error fault, disk)
      | .ok disk => (.ok (), disk)

/-- Saves a job as the next version of a spec, and answers with its number.  A
version that cannot be written is not stored. -/
def save (s : Store) (spec : String) (job : Job) (now : Timestamp) (disk : Disk) :
    Except JobError Nat × Store × Disk :=
  if !isName spec then (.error (.invalidIdentifier spec), s, disk)
  else
    let v : SpecVersion := ⟨spec, s.nextVersion spec, now, Snapshot.capture job⟩
    match s.writeVersion v disk with
    | (.error fault, disk) => (.error (.inputOutput fault), s, disk)
    | (.ok (), disk) => (.ok v.version, s.push v, disk)

/-- Removes a spec with all its versions, and answers with them. -/
def remove (s : Store) (spec : String) (disk : Disk) :
    Except JobError (Option (List SpecVersion)) × Store × Disk :=
  let forget := fun (disk : Disk) =>
    (.ok (s.specs.find? spec), { s with specs := s.specs.erase spec }, disk)
  match s.folder with
  | none => forget disk
  | some folder =>
    let path := Disk.join folder spec
    if disk.contains path then
      match disk.removeFolder path with
      | (.error fault, disk) => (.error (.inputOutput fault), s, disk)
      | (.ok (), disk) => forget disk
    else forget disk

end Store
end JobPipeline
