import JobPipeline.Url.Host

/-
URLs in normal form.

A text that is read as a URL loses the blanks and controls at its ends, its
tabs and its line breaks, and the user of its address.  In the URL the scheme is
in lower case, the host is in its one written form, the number behind the host
is left out where the scheme implies it, no step of the path is `.` or `..`, and
characters that may not stand for themselves are escaped.

The schemes of the web differ from all others: they always have a host and a
path, and a backslash is a slash to them.
-/
namespace JobPipeline

/-- A host and the number of a service on it, if it is not the usual one. -/
structure Url.Authority where
  host : Url.Host
  portNumber : Option Nat
deriving DecidableEq, Repr

inductive Url.Path where
  /-- Steps, each with a slash in front. -/
  | steps (all : List (List Char))
  /-- A text that does not begin with a slash. -/
  | bare (text : List Char)
deriving DecidableEq, Repr

structure Url where
  scheme : List Char
  authority : Option Url.Authority
  path : Url.Path
  query : Option (List Char)
  fragment : Option (List Char)
deriving DecidableEq, Repr

namespace Url

/-! Schemes -/

/-- How the text behind a scheme is read. -/
inductive Family where
  /-- A scheme of the web, with the number that it implies. -/
  | web (portNumber : Nat)
  | file
  | other
deriving DecidableEq, Repr

def families : List (String × Family) :=
  [("http", .web 80), ("https", .web 443), ("ws", .web 80), ("wss", .web 443), ("ftp", .web 21),
    ("file", .file)]

def family (scheme : List Char) : Family :=
  (families.lookup (String.ofList scheme)).getD .other

def Family.isOther : Family → Bool
  | .other => true
  | _ => false

def isSchemeChar (c : Char) : Bool := c.isAlphanum || c == '+' || c == '-' || c == '.'

/-- The scheme of a text and what follows its colon. -/
def scheme? (cs : List Char) : Option (List Char × List Char) :=
  match cs.takeWhile isSchemeChar, cs.dropWhile isSchemeChar with
  | c :: scheme, ':' :: rest =>
    if c.isAlpha then some (Text.lowerAscii (c :: scheme), rest) else none
  | _, _ => none

/-! The parts of a text -/

/-- What counts of a text. -/
def significant (cs : List Char) : List Char :=
  let isEdge := fun (c : Char) => c.toNat ≤ 32
  let inner := ((cs.dropWhile isEdge).reverse.dropWhile isEdge).reverse
  inner.filter fun c => c ≠ '\t' && c ≠ '\n' && c ≠ '\r'

/-- The text before a mark and, if it is there, what follows it. -/
def cutAt (mark : Char) (cs : List Char) : List Char × Option (List Char) :=
  match cs.dropWhile (· ≠ mark) with
  | [] => (cs, none)
  | _ :: rest => (cs.takeWhile (· ≠ mark), some rest)

/-- The text up to its first slash and the text from there on. -/
def cutAtSlash (cs : List Char) : List Char × List Char :=
  (cs.takeWhile (· ≠ '/'), cs.dropWhile (· ≠ '/'))

/-- Backslashes as slashes. -/
def straighten (cs : List Char) : List Char := cs.map fun c => if c = '\\' then '/' else c

/-! Authorities -/

/-- The text behind the user of an address.  A user needs a host. -/
def withoutUser? (cs : List Char) : Option (List Char) :=
  if cs.contains '@' then
    some ((cs.reverse.takeWhile (· ≠ '@')).reverse) |>.filter (· ≠ [])
  else some cs

/-- A host, up to the first colon outside of brackets, and what follows the
colon. -/
def cutHost : (inBrackets : Bool) → List Char → List Char × Option (List Char)
  | _, [] => ([], none)
  | inBrackets, c :: cs =>
    if c = ':' ∧ !inBrackets then ([], some cs)
    else
      let (host, number) := cutHost (c = '[' || (inBrackets && c ≠ ']')) cs
      (c :: host, number)

/-- The number of 16 bits that digits denote; no digits say nothing. -/
def portNumber? (cs : List Char) : Option (Option Nat) :=
  if cs = [] then some none else ((Numeral.digits? cs).filter (· ≤ 65535)).map some

/-- An address with its user, in a scheme of the web or another one.  A colon
needs a host. -/
def authority? (family : Family) (cs : List Char) : Option Authority := do
  let (host, behindColon) := cutHost false (← withoutUser? cs)
  let number ← portNumber? (behindColon.getD [])
  match family with
  | .web usual => return ⟨← Host.ofText? host, if number = some usual then none else number⟩
  | _ =>
    if host = [] ∧ behindColon.isSome then none
    else return ⟨← Host.plain? host, number⟩

/-- The host of a file, which is left out when it is this one. -/
def fileAuthority? (cs : List Char) : Option Authority :=
  if cs = [] then some ⟨.named [], none⟩
  else (Host.ofText? cs).map fun host =>
    ⟨if host = .named "localhost".toList then .named [] else host, none⟩

/-! Paths -/

/-- A step of one point, which may be escaped. -/
def staysHere (step : List Char) : Bool :=
  [".", "%2e"].contains (String.ofList (Text.lowerAscii step))

/-- A step of two points. -/
def goesUp (step : List Char) : Bool :=
  ["..", ".%2e", "%2e.", "%2e%2e"].contains (String.ofList (Text.lowerAscii step))

/-- A step of points, which does not stand in a path. -/
def isPoints (step : List Char) : Bool := goesUp step || staysHere step

/-- The steps that are left behind one more step, all from the last to the
first: two points take back a step. -/
def advance (done : List (List Char)) (step : List Char) : List (List Char) :=
  if goesUp step then done.tail else if staysHere step then done else step :: done

/-- The steps that are left of a path.  A path that ends in a step of points ends
in a slash. -/
def walk (done : List (List Char)) : List (List Char) → List (List Char)
  | [] => done.reverse
  | [step] => (if isPoints step then [] :: advance done step else advance done step).reverse
  | step :: next :: rest => walk (advance done step) (next :: rest)

theorem isPoints_of_mem_advance {done : List (List Char)} {step s : List Char}
    (hdone : ∀ s ∈ done, isPoints s = false) (h : s ∈ advance done step) : isPoints s = false := by
  rw [advance] at h
  split at h
  · exact hdone s (List.mem_of_mem_tail h)
  · split at h
    · exact hdone s h
    · next up here =>
      rcases List.mem_cons.mp h with rfl | h
      · simp [isPoints, up, here]
      · exact hdone s h

theorem isPoints_of_mem_walk {done steps : List (List Char)} {s : List Char}
    (hdone : ∀ s ∈ done, isPoints s = false) (h : s ∈ walk done steps) : isPoints s = false := by
  fun_induction walk done steps with
  | case1 done => exact hdone s (List.mem_reverse.mp h)
  | case2 done step =>
    have h := List.mem_reverse.mp h
    split at h
    · rcases List.mem_cons.mp h with rfl | h
      · decide
      · exact isPoints_of_mem_advance hdone h
    · exact isPoints_of_mem_advance hdone h
  | case3 done step next rest ih =>
    exact ih (fun _ => isPoints_of_mem_advance hdone) h

/-- The path of steps that a text writes, with or without a slash in front. -/
def Path.ofText (cs : List Char) : Path :=
  let cs := if cs.head? = some '/' then cs.tail else cs
  .steps ((walk [] (Text.splitOn '/' cs)).map (escape standsInPath))

/-! URLs -/

/-- The authority and the path behind a scheme. -/
def location? (family : Family) (cs : List Char) : Option (Option Authority × Path) :=
  match family with
  | .web _ =>
    let (address, rest) := cutAtSlash ((straighten cs).dropWhile (· = '/'))
    (authority? family address).map fun a => (some a, .ofText rest)
  | .file =>
    match straighten cs with
    | '/' :: '/' :: cs =>
      let (address, rest) := cutAtSlash cs
      (fileAuthority? address).map fun a => (some a, .ofText rest)
    | cs => some (some ⟨.named [], none⟩, .ofText cs)
  | .other =>
    match cs with
    | '/' :: '/' :: cs =>
      let (address, rest) := cutAtSlash cs
      (authority? family address).map fun a => (some a, if rest = [] then .bare [] else .ofText rest)
    | '/' :: cs => some (none, .ofText cs)
    | cs => some (none, .bare (escape isPrinted cs))

def ofText? (text : String) : Option Url := do
  let (scheme, rest) ← scheme? (significant text.toList)
  let family := family scheme
  let (rest, fragment) := cutAt '#' rest
  let (rest, query) := cutAt '?' rest
  let (authority, path) ← location? family rest
  return { scheme, authority, path
           query := query.map (escape (if family.isOther then standsInQuery else standsInWebQuery))
           fragment := fragment.map (escape standsInFragment) }

def Authority.text (a : Authority) : List Char :=
  a.host.text ++ match a.portNumber with
    | none => []
    | some n => ':' :: (toString n).toList

def Path.text : Path → List Char
  | .steps all => all.flatMap ('/' :: ·)
  | .bare text => text

/-- A part with the mark that it begins with. -/
def marked (mark : Char) (part : Option (List Char)) : List Char :=
  match part with
  | none => []
  | some cs => mark :: cs

/-- The path and the query, which are what a service is asked for. -/
def target (url : Url) : String :=
  String.ofList (url.path.text ++ marked '?' url.query)

/-- The text of a URL.  Without an authority, a path of two slashes at its start
has a step of one point put in front. -/
def text (url : Url) : String :=
  let place := match url.authority, url.path with
    | some a, path => '/' :: '/' :: a.text ++ path.text
    | none, .steps ([] :: step :: steps) => '/' :: '.' :: (Path.steps ([] :: step :: steps)).text
    | none, path => path.text
  String.ofList (url.scheme ++ ':' :: place ++ marked '?' url.query ++ marked '#' url.fragment)

end Url
end JobPipeline
