import JobPipeline.Number.Numeral

/-
Reading the arguments of the command line.

Options and values may stand in any order behind the name of the command.  An
option takes its value from behind an equals sign or from the next argument,
which must not look like an option; two hyphens end the options.
-/
namespace JobPipeline
namespace CommandLine

inductive Command where
  /-- Reads a spec and prints it as it compiles; perhaps saves it too. -/
  | read (file : String) (save : Option String)
  /-- Prints a stored spec. -/
  | compile (spec : String) (version : Option Nat)
  | validate (file : String)
  | list
  | simulate (file : String) (remoteParser execute : Bool)
deriving DecidableEq, Repr

inductive Request where
  | run (config : Option String) (command : Command)
  | showVersion
  | showHelp
  /-- They do not fit together. -/
  | misuse
deriving DecidableEq, Repr

def version? (text : String) : Option Nat :=
  (Numeral.integer? text).bind fun n => if 0 ≤ n ∧ n < twoTo 32 then some n.toNat else none

/-- What an argument may hold. -/
inductive Content where
  | anything
  | path
  | version
deriving DecidableEq, Repr

def Content.allows : Content → String → Bool
  | .anything, _ => true
  | .path, text => text ≠ ""
  | .version, text => (version? text).isSome

/-- What can be given to a command: options with a value, flags, and values. -/
structure Options where
  valued : List (String × Content)
  flags : List String
  values : List Content
deriving Repr

/-- The options that have been given, and the values. -/
structure Given where
  options : List (String × String)
  flags : List String
  values : List String
deriving Repr

namespace Given

def nothing : Given := ⟨[], [], []⟩

def option? (g : Given) (name : String) : Option String := g.options.lookup name

def hasFlag (g : Given) (name : String) : Bool := g.flags.contains name

/-- Adds an option, unless it was given before or cannot hold the value. -/
def addOption (g : Given) (name : String) (content : Content) (value : String) : Option Given :=
  if (g.option? name).isSome || !content.allows value then none
  else some { g with options := g.options ++ [(name, value)] }

def addFlag (g : Given) (name : String) : Option Given :=
  if g.hasFlag name then none else some { g with flags := g.flags ++ [name] }

/-- Adds a value, unless there are enough or it is not of the kind due. -/
def addValue (g : Given) (o : Options) (value : String) : Option Given :=
  match o.values[g.values.length]? with
  | some content =>
    if content.allows value then some { g with values := g.values ++ [value] } else none
  | none => none

end Given

inductive Word where
  /-- Two hyphens and nothing else. -/
  | endOfOptions
  /-- Two hyphens, a name, and perhaps a value. -/
  | long (name : String) (value : Option String)
  /-- One hyphen and letters. -/
  | short (letters : List Char)
  | plain (text : String)
deriving DecidableEq, Repr

def Word.of (argument : String) : Word :=
  match argument.toList with
  | '-' :: '-' :: [] => .endOfOptions
  | '-' :: '-' :: rest =>
    match Text.aroundMark? ['='] rest with
    | some (name, value) => .long (String.ofList name) (some (String.ofList value))
    | none => .long (String.ofList rest) none
  | '-' :: c :: rest => .short (c :: rest)
  | _ => .plain argument

inductive Ending where
  | given (g : Given)
  /-- A value that is the name of a command, with the arguments behind it. -/
  | command (g : Given) (name : String) (rest : List String)
  | help
  | version
  | misuse
deriving Repr

def takeOption (o : Options) (g : Given) (name : String) (value : Option String)
    (rest : List String) : Option (Given × List String) :=
  if o.flags.contains name then
    if value.isSome then none else (g.addFlag name).map fun g => (g, rest)
  else match o.valued.lookup name with
    | none => none
    | some content =>
      match value, rest with
      | some v, rest => (g.addOption name content v).map fun g => (g, rest)
      | none, next :: rest =>
        match Word.of next with
        | .plain v => (g.addOption name content v).map fun g => (g, rest)
        | _ => none
      | none, [] => none

/-- Reads arguments from the left.  On the `outer` level a value is the name of a
command, and the version can be asked for. -/
def readFrom (outer : Bool) (o : Options) : (fuel : Nat) → Given → List String → Ending
  | _, g, [] => .given g
  | 0, _, _ => .misuse
  | fuel + 1, g, argument :: rest =>
    match Word.of argument with
    | .endOfOptions =>
      match rest.foldlM (fun (g : Given) value => g.addValue o value) g with
      | some g => .given g
      | none => .misuse
    | .plain text =>
      if outer then .command g text rest
      else match g.addValue o text with
        | some g => readFrom outer o fuel g rest
        | none => .misuse
    | .short letters =>
      if letters.head? = some 'h' then .help
      else if outer && letters.head? = some 'V' then .version
      else .misuse
    | .long name value =>
      if name = "help" && value.isNone then .help
      else if outer && name = "version" && value.isNone then .version
      else match takeOption o g name value rest with
        | some (g, rest) => readFrom outer o fuel g rest
        | none => .misuse

def readArguments (outer : Bool) (o : Options) (arguments : List String) : Ending :=
  readFrom outer o arguments.length Given.nothing arguments

/-- What can be given in front of the name of a command. -/
def outerOptions : Options := ⟨[("config", .path)], [], []⟩

def optionsOf (name : String) : Option Options :=
  let config := ("config", Content.path)
  if name = "import" then some ⟨[config, ("save", .anything)], [], [.path]⟩
  else if name = "compile" then some ⟨[config, ("version", .version)], [], [.anything]⟩
  else if name = "validate" then some ⟨[config], [], [.path]⟩
  else if name = "list" then some ⟨[config], [], []⟩
  else if name = "simulate" then some ⟨[config], ["remote-parser", "execute"], [.path]⟩
  else none

def command? (name : String) (g : Given) : Option Command :=
  match g.values with
  | [] => if name = "list" then some .list else none
  | value :: _ =>
    if name = "import" then some (.read value (g.option? "save"))
    else if name = "compile" then
      some (.compile value ((g.option? "version").bind version?))
    else if name = "validate" then some (.validate value)
    else if name = "simulate" then
      some (.simulate value (g.hasFlag "remote-parser") (g.hasFlag "execute"))
    else none

/-- The words behind `help` name a command, or nothing. -/
def isHelpTopic : List String → Bool
  | [] => true
  | [name] => name = "help" || (optionsOf name).isSome
  | _ => false

/-- What the arguments ask for.  The configuration named behind the command goes
before the one named in front of it. -/
def Request.ofArguments (arguments : List String) : Request :=
  match readArguments true outerOptions arguments with
  | .help => .showHelp
  | .version => .showVersion
  | .misuse | .given _ => .misuse
  | .command outer name rest =>
    if name = "help" then if isHelpTopic rest then .showHelp else .misuse
    else match optionsOf name with
      | none => .misuse
      | some o =>
        match readArguments false o rest with
        | .help => .showHelp
        | .version | .misuse | .command .. => .misuse
        | .given g =>
          match command? name g with
          | none => .misuse
          | some command => .run ((g.option? "config").or (outer.option? "config")) command

end CommandLine
end JobPipeline
