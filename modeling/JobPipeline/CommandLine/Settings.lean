import JobPipeline.Disk
import JobPipeline.Service.Address

/-
The settings of the command line: where the services and the store are.

They are read from the file named by the arguments, or from the file in the
user's folder of configurations.  Without the file the standard settings hold.
-/
namespace JobPipeline
namespace CommandLine

open Json (record? given? string?)

structure Folders where
  config : Option String
  data : Option String
deriving DecidableEq, Repr

namespace Folders

/-- The file of settings that is read when none is named. -/
def settingsFile (f : Folders) : Option String :=
  f.config.map fun folder => Disk.join (Disk.join folder "jobspec") "config.json"

/-- The folder of the store when none is set. -/
def storeFolder (f : Folders) : String :=
  match f.data with
  | some folder => Disk.join (Disk.join folder "jobspec") "specs"
  | none => ".jobspec/specs"

end Folders

structure Settings where
  services : ServiceAddress
  storeFolder : String
deriving DecidableEq, Repr

namespace Settings

def standard (f : Folders) : Settings := ⟨ServiceAddress.standard, f.storeFolder⟩

def scope : Json.Scope :=
  .record [("collaborators", ServiceAddress.scope), ("storeDir", .everything)]

def ofJson? (f : Folders) (json : Json) : Option Settings := do
  let members ← record? scope json
  return {
    services := ← given? members "collaborators" ServiceAddress.ofJson? ServiceAddress.standard
    storeFolder := ← given? members "storeDir" string? f.storeFolder }

end Settings

/-- What ends a command, and what was the cause of it. -/
structure Failure where
  message : String
  cause : Option String
deriving DecidableEq, Repr

namespace Failure

def reading (path : String) (fault : DiskFault) : Failure :=
  ⟨"reading " ++ path, some fault.message⟩

def parsing (path : String) : Failure := ⟨"parsing " ++ path, some "not a settings file"⟩

def text (f : Failure) : String :=
  let cause := match f.cause with
    | some cause => "\n\nCaused by:\n    " ++ cause
    | none => ""
  "Error: " ++ f.message ++ cause ++ "\n"

end Failure

def settings (f : Folders) (named : Option String) (disk : Disk) : Except Failure Settings :=
  match named.or f.settingsFile with
  | none => .ok (Settings.standard f)
  | some path =>
    if disk.contains path then
      match disk.read path with
      | .error fault => .error (.reading path fault)
      | .ok content =>
        match Json.readAs? Settings.scope (Settings.ofJson? f) content with
        | some settings => .ok settings
        | none => .error (.parsing path)
    else .ok (Settings.standard f)

end CommandLine
end JobPipeline
