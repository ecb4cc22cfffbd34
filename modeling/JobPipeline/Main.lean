import JobPipeline.CommandLine.Run
import Std.Time.DateTime.Timestamp

/-
The program: what a run needs is read from the file system, and what the run
leaves behind is written to it.
-/
namespace JobPipeline
namespace Program

/-- The item at a path of the file system, with all that is below it. -/
partial def load (path : String) : IO (Option DiskItem) := do
  let file := (← IO.currentDir) / path
  if ← file.isDir then
    let mut items := []
    for entry in ← file.readDir do
      if let some item ← load (Disk.join path entry.fileName) then
        items := items ++ [(entry.fileName, item)]
    return some (.folder items)
  else if ← file.pathExists then return some (.file (← IO.FS.readFile file))
  else return none

/-- Puts what the file system has at a path on a disk. -/
def mount (disk : Disk) (path : String) : IO Disk := do
  match ← load path with
  | none => return disk
  | some item =>
    match disk.makeFolders (Disk.join path "..") with
    | (.error _, disk) => return disk
    | (.ok (), disk) =>
      match disk.resolve path with
      | .error _ => return disk
      | .ok names => return { disk with root := disk.root.put names item }

/-- An empty disk with the folder in which the program runs. -/
def emptyDisk : IO Disk := do
  let here := toString (← IO.currentDir)
  match Disk.empty.makeFolders here with
  | (.error _, disk) => return disk
  | (.ok (), disk) => return { disk with current := (Disk.parts here).filter (· ≠ "") }

/-- The folder that a variable names, or the one below the user's own. -/
def userFolder (name below : String) : IO (Option String) := do
  match ← IO.getEnv name with
  | some path => if path.toList.head? = some '/' then return some path else home
  | none => home
where
  home : IO (Option String) := return (← IO.getEnv "HOME").map fun path => Disk.join path below

/-- The file that a command reads. -/
def fileOf : CommandLine.Command → Option String
  | .read file _ | .validate file | .simulate file .. => some file
  | .compile .. | .list => none

/-- The parts of the file system that a run looks at. -/
def diskFor (folders : CommandLine.Folders) (arguments : List String) : IO Disk := do
  let disk ← emptyDisk
  match CommandLine.Request.ofArguments arguments with
  | .run config command =>
    let disk ← (config.or folders.settingsFile).elim (pure disk) (mount disk)
    let disk ← (fileOf command).elim (pure disk) (mount disk)
    match CommandLine.settings folders config disk with
    | .ok settings => mount disk settings.storeFolder
    | .error _ => return disk
  | _ => return disk

/-- Writes the files that are not as they were. -/
def writeBack (before after : Disk) : IO Unit := do
  let old := before.files "/"
  for (path, content) in after.files "/" do
    unless old.contains (path, content) do
      let file := (← IO.currentDir) / ("/" ++ path)
      if let some folder := file.parent then IO.FS.createDirAll folder
      IO.FS.writeFile file content

def now : IO Timestamp := do
  let time ← Std.Time.Timestamp.now
  let nanoseconds := time.toNanosecondsSinceUnixEpoch.val
  return ⟨nanoseconds / 1000000000, (nanoseconds % 1000000000).toNat⟩

end Program
end JobPipeline

open JobPipeline in
def main (arguments : List String) : IO UInt32 := do
  let folders : CommandLine.Folders :=
    ⟨← Program.userFolder "XDG_CONFIG_HOME" ".config", ← Program.userFolder "XDG_DATA_HOME" ".local/share"⟩
  let disk ← Program.diskFor folders arguments
  let outcome := CommandLine.run ⟨folders, ← Program.now, Transport.none⟩ arguments disk
  IO.print outcome.output
  IO.eprint outcome.errors
  Program.writeBack disk outcome.disk
  return outcome.code.toUInt32
