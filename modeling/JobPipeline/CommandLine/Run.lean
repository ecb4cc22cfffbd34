import JobPipeline.CommandLine.Arguments
import JobPipeline.CommandLine.Settings
import JobPipeline.Service.Transport
import JobPipeline.Simulation.Walkthrough
import JobPipeline.Store.Loading
import JobPipeline.Workspace

/-
The commands: reading, compiling, checking, listing and simulating specs.

A run is a function of the arguments, the disk and the world around, and gives
what is printed, the exit code and the disk behind it.
-/
namespace JobPipeline
namespace CommandLine

structure Surroundings where
  folders : Folders
  now : Timestamp
  transport : Transport

structure Outcome where
  code : Nat
  output : String
  errors : String
  disk : Disk
deriving Repr

/-- A run that is under way: what it has printed, and the disk. -/
structure Progress where
  output : String
  errors : String
  disk : Disk
deriving Repr

namespace Progress

def start (disk : Disk) : Progress := ⟨"", "", disk⟩

def print (p : Progress) (line : String) : Progress := { p with output := p.output ++ line ++ "\n" }

def printAll (p : Progress) (lines : List String) : Progress := lines.foldl print p

def warn (p : Progress) (warning : String) : Progress :=
  { p with errors := p.errors ++ "warning: " ++ warning ++ "\n" }

def finish (p : Progress) : Outcome := ⟨0, p.output, p.errors, p.disk⟩

def fail (p : Progress) (f : Failure) : Outcome := ⟨1, p.output, p.errors ++ f.text, p.disk⟩

end Progress

def Failure.of (error : JobError) : Failure :=
  match error with
  | .inputOutput fault => ⟨error.message, some fault.message⟩
  | _ => ⟨error.message, none⟩

def readSpec (file : String) (p : Progress) : Except Outcome (Workspace × Progress) :=
  match p.disk.read file with
  | .error fault => .error (p.fail (.reading file fault))
  | .ok text =>
    match Workspace.ofSpec text with
    | .error error => .error (p.fail (.of error))
    | .ok (workspace, warnings) => .ok (workspace, warnings.foldl Progress.warn p)

def openStore (settings : Settings) (p : Progress) : Except Outcome Store :=
  match (Store.inFolder settings.storeFolder).load p.disk with
  | (.error error, _) => .error (p.fail (.of error))
  | (.ok _, store) => .ok store

/-- Prints a spec as it compiles, and saves it if a name is given for it. -/
def printSpec (w : Surroundings) (settings : Settings) (file : String) (save : Option String)
    (p : Progress) : Except Outcome Progress := do
  let (workspace, p) ← readSpec file p
  let p := p.print workspace.text
  match save with
  | none => return p
  | some spec =>
    let store ← openStore settings p
    match store.save spec workspace.job w.now p.disk with
    | (.error error, _, disk) => .error ({ p with disk }.fail (.of error))
    | (.ok _, _, disk) => return { p with disk }

def printStored (settings : Settings) (spec : String) (version : Option Nat) (p : Progress) :
    Except Outcome Progress := do
  let store ← openStore settings p
  let stored := match version with
    | some n => store.get? spec n
    | none => store.latest? spec
  match stored with
  | none => .error (p.fail ⟨"no stored spec '" ++ spec ++ "'", none⟩)
  | some v =>
    match Workspace.restore v.snapshot with
    | .error error => .error (p.fail (.of error))
    | .ok workspace => return p.print workspace.text

def checkSpec (file : String) (p : Progress) : Except Outcome Progress := do
  let (workspace, p) ← readSpec file p
  let errors := workspace.errors
  let p := p.printAll (errors.map ValidationError.message)
  if errors = [] then return p.print "valid"
  else .error (p.fail ⟨toString errors.length ++ " validation error(s)", none⟩)

def summaryLine (s : SpecSummary) : String :=
  String.intercalate "\t"
    [s.spec, "v" ++ toString s.latest, s.updatedAt.offsetText, s.name.getD ""]

def listSpecs (settings : Settings) (p : Progress) : Except Outcome Progress := do
  let store ← openStore settings p
  return p.printAll (store.list.map summaryLine)

/-- Walks through the plan of a spec and prints the results. -/
def simulateSpec (w : Surroundings) (settings : Settings) (file : String)
    (remoteParser execute : Bool) (p : Progress) : Except Outcome Progress := do
  let (workspace, p) ← readSpec file p
  let services := w.transport.services settings.services remoteParser
  let (results, stop, _) :=
    Simulation.walkThrough services execute ⟨Walk.start, workspace.job, (), []⟩
  let p := p.printAll (results.map fun r => r.toJson.compact)
  match stop with
  | none => return p
  | some (.failed error) => .error (p.fail (.of error))
  | some stop => .error (p.fail ⟨stop.message, none⟩)

def perform (w : Surroundings) (settings : Settings) (command : Command) (p : Progress) :
    Except Outcome Progress :=
  match command with
  | .read file save => printSpec w settings file save p
  | .compile spec version => printStored settings spec version p
  | .validate file => checkSpec file p
  | .list => listSpecs settings p
  | .simulate file remoteParser execute => simulateSpec w settings file remoteParser execute p

def usage : String :=
  "Usage: jobspec [--config <CONFIG>] <import|compile|validate|list|simulate> [ARGUMENTS]"

def versionLine : String := "jobspec 0.1.0"

def run (w : Surroundings) (arguments : List String) (disk : Disk) : Outcome :=
  let p := Progress.start disk
  match Request.ofArguments arguments with
  | .misuse => ⟨2, "", "", disk⟩
  | .showVersion => (p.print versionLine).finish
  | .showHelp => (p.print usage).finish
  | .run config command =>
    match settings w.folders config disk with
    | .error failure => p.fail failure
    | .ok settings =>
      match perform w settings command p with
      | .ok p => p.finish
      | .error outcome => outcome

end CommandLine
end JobPipeline
