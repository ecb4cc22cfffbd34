import JobPipeline.Text.Segment

/-
A disk: folders of files, as the operating system answers for them.

Paths are texts.  A path is followed part by part from the root or from the
current folder; each part but the last has to be a folder that is there, `.` is
the folder itself and `..` the one it lies in.  Names and whole paths have a
limited length.
-/
namespace JobPipeline

inductive DiskFault where
  | notFound
  | alreadyThere
  | busy
  | notFolder
  | isFolder
  | invalid
  | notEmpty
  | nameTooLong
  /-- Refused before the operating system is asked. -/
  | zeroInName
deriving DecidableEq, Repr

def DiskFault.message : DiskFault → String
  | .notFound => "No such file or directory (os error 2)"
  | .busy => "Device or resource busy (os error 16)"
  | .alreadyThere => "File exists (os error 17)"
  | .notFolder => "Not a directory (os error 20)"
  | .isFolder => "Is a directory (os error 21)"
  | .invalid => "Invalid argument (os error 22)"
  | .nameTooLong => "File name too long (os error 36)"
  | .notEmpty => "Directory not empty (os error 39)"
  | .zeroInName => "file name contained an unexpected NUL byte"

inductive DiskItem where
  | file (content : String)
  /-- In the order in which a listing gives them. -/
  | folder (items : List (String × DiskItem))
deriving Repr, Inhabited

namespace DiskItem

def emptyFolder : DiskItem := .folder []

def isFolder : DiskItem → Bool
  | .folder _ => true
  | .file _ => false

def at? (tree : DiskItem) (path : List String) : Option DiskItem :=
  match path, tree with
  | [], item => some item
  | _ :: _, .file _ => none
  | name :: path, .folder items => (items.lookup name).bind fun inner => inner.at? path

/-- Puts an item under a name, in its place or behind the others. -/
def replace (name : String) (item : DiskItem) :
    List (String × DiskItem) → List (String × DiskItem)
  | [] => [(name, item)]
  | (n, i) :: rest => if n = name then (n, item) :: rest else (n, i) :: replace name item rest

/-- Puts an item at a path; the folder that it lies in has to be there. -/
def put (tree : DiskItem) (path : List String) (item : DiskItem) : DiskItem :=
  match path, tree with
  | [], _ => item
  | _ :: _, .file content => .file content
  | [name], .folder items => .folder (replace name item items)
  | name :: path, .folder items =>
    match items.lookup name with
    | some inner => .folder (replace name (inner.put path item) items)
    | none => .folder items

def drop (tree : DiskItem) (path : List String) : DiskItem :=
  match path, tree with
  | [], item => item
  | _ :: _, .file content => .file content
  | [name], .folder items => .folder (items.filter fun i => i.1 ≠ name)
  | name :: path, .folder items =>
    match items.lookup name with
    | some inner => .folder (replace name (inner.drop path) items)
    | none => .folder items

mutual
def files : DiskItem → List (List String × String)
  | .file content => [([], content)]
  | .folder items => filesOf items

def filesOf : List (String × DiskItem) → List (List String × String)
  | [] => []
  | (name, item) :: rest =>
    (files item).map (fun f => (name :: f.1, f.2)) ++ filesOf rest
end

end DiskItem

structure Disk where
  root : DiskItem
  /-- Names that lead from the root to the current folder. -/
  current : List String
deriving Repr, Inhabited

namespace Disk

def empty : Disk := ⟨.emptyFolder, []⟩

def parts (path : String) : List String := (Text.splitOn '/' path.toList).map String.ofList

/-- Names of the folder from which a path is followed. -/
def origin (d : Disk) (path : String) : List String :=
  if path.toList.head? = some '/' then [] else d.current

def longestName : Nat := 255

def longestPath : Nat := 4095

/-- What a path is refused with before it is followed. -/
def pathFault (path : String) : Option DiskFault :=
  if path.toList.any fun c => c.toNat = 0 then some .zeroInName
  else if longestPath < path.utf8ByteSize then some .nameTooLong
  else none

def folderFault (d : Disk) (names : List String) : Option DiskFault :=
  match d.root.at? names with
  | none => some .notFound
  | some (.file _) => some .notFolder
  | some (.folder _) => none

def follow (d : Disk) : (here : List String) → List String → Except DiskFault (List String)
  | here, [] => .ok here
  | here, part :: rest =>
    match d.folderFault here with
    | some fault => .error fault
    | none =>
      if part = "" ∨ part = "." then d.follow here rest
      else if part = ".." then d.follow here.dropLast rest
      else if longestName < part.utf8ByteSize then .error .nameTooLong
      else d.follow (here ++ [part]) rest

/-- The names that lead to what a path means, which need not be there. -/
def resolve (d : Disk) (path : String) : Except DiskFault (List String) :=
  if path = "" then .error .notFound
  else
    match pathFault path with
    | some fault => .error fault
    | none => d.follow (d.origin path) (parts path)

def find (d : Disk) (path : String) : Except DiskFault DiskItem :=
  match d.resolve path with
  | .error fault => .error fault
  | .ok names =>
    match d.root.at? names with
    | some item => .ok item
    | none => .error .notFound

def contains (d : Disk) (path : String) : Bool :=
  match d.find path with
  | .ok _ => true
  | .error _ => false

def read (d : Disk) (path : String) : Except DiskFault String :=
  match d.find path with
  | .error fault => .error fault
  | .ok (.folder _) => .error .isFolder
  | .ok (.file content) => .ok content

def list (d : Disk) (path : String) : Except DiskFault (List (String × DiskItem)) :=
  match d.find path with
  | .error fault => .error fault
  | .ok (.file _) => .error .notFolder
  | .ok (.folder items) => .ok items

/-- Makes the folders of a path that are missing.  Those made before a fault
stay. -/
def makeFrom (d : Disk) : (here : List String) → List String → Except DiskFault Unit × Disk
  | _, [] => (.ok (), d)
  | here, part :: rest =>
    if part = "" ∨ part = "." then d.makeFrom here rest
    else if part = ".." then d.makeFrom here.dropLast rest
    else if longestName < part.utf8ByteSize then (.error .nameTooLong, d)
    else
      let next := here ++ [part]
      match d.root.at? next with
      | some (.folder _) => d.makeFrom next rest
      | some (.file _) => (.error (if rest = [] then .alreadyThere else .notFolder), d)
      | none => makeFrom { d with root := d.root.put next .emptyFolder } next rest

def makeFolders (d : Disk) (path : String) : Except DiskFault Unit × Disk :=
  if path = "" then (.ok (), d)
  else
    match pathFault path with
    | some fault => (.error fault, d)
    | none => d.makeFrom (d.origin path) (parts path)

def write (d : Disk) (path content : String) : Except DiskFault Disk :=
  match d.resolve path with
  | .error fault => .error fault
  | .ok names =>
    match d.folderFault names.dropLast with
    | some fault => .error fault
    | none =>
      match d.root.at? names with
      | some (.folder _) => .error .isFolder
      | _ => .ok { d with root := d.root.put names (.file content) }

def lastPart (path : String) : String := (((parts path).filter (· ≠ "")).getLast?).getD ""

/-- Removes a folder with all that is in it: first the contents, and then the folder
itself.  The root stays, and so does a folder that the path ends in with `.` or `..`.  A
path that leads through the contents ends nowhere by then, which is no fault. -/
def removeFolder (d : Disk) (path : String) : Except DiskFault Unit × Disk :=
  match d.find path, d.resolve path with
  | .error fault, _ | _, .error fault => (.error fault, d)
  | .ok (.file _), _ => (.error .notFolder, d)
  | .ok (.folder _), .ok names =>
    let emptied := { d with root := d.root.put names .emptyFolder }
    match emptied.resolve path with
    | .error _ => (.ok (), emptied)
    | .ok _ =>
      let last := lastPart path
      if last = "." then (.error .invalid, emptied)
      else if last = ".." then (.error .notEmpty, emptied)
      else if names = [] then (.error .busy, emptied)
      else (.ok (), { d with root := d.root.drop names })

/-- A path below another; one that begins at the root stands for itself. -/
def join (path inner : String) : String :=
  if inner.toList.head? = some '/' ∨ path = "" then inner
  else if path.toList.getLast? = some '/' then path ++ inner
  else path ++ "/" ++ inner

def files (d : Disk) (path : String) : List (String × String) :=
  match d.find path with
  | .error _ => []
  | .ok item => item.files.map fun (names, content) => (String.intercalate "/" names, content)

end Disk
end JobPipeline
