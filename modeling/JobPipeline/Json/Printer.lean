import JobPipeline.Json.Basic
import JobPipeline.Number.Shortest

/-
The text of a JSON value, in one line or indented by two spaces.

Members are written in the order they have.  Only the quote, the backslash and
the control characters below the space are escaped.
-/
namespace JobPipeline
namespace Json

def hexDigit (n : Nat) : Char := Nat.digitChar (n % 16)

/-- A character as it stands between the quotes of a string. -/
def escapeChar (c : Char) : List Char :=
  if c = '"' then ['\\', '"']
  else if c = '\\' then ['\\', '\\']
  else if c.toNat = 8 then ['\\', 'b']
  else if c = '\t' then ['\\', 't']
  else if c = '\n' then ['\\', 'n']
  else if c.toNat = 12 then ['\\', 'f']
  else if c = '\r' then ['\\', 'r']
  else if c.toNat < 32 then ['\\', 'u', '0', '0', hexDigit (c.toNat / 16), hexDigit c.toNat]
  else [c]

def quoted (s : String) : String :=
  String.ofList ('"' :: s.toList.flatMap escapeChar ++ ['"'])

def Number.text : Number → String
  | .whole n => toString n
  | .real x => x.jsonText

mutual
/-- The value on one line, without blanks. -/
def compact : Json → String
  | .null => "null"
  | .bool true => "true"
  | .bool false => "false"
  | .number n => n.text
  | .string s => quoted s
  | .array items => "[" ++ String.intercalate "," (compactItems items) ++ "]"
  | .object members => "\x7b" ++ String.intercalate "," (compactMembers members) ++ "\x7d"

def compactItems : List Json → List String
  | [] => []
  | item :: items => compact item :: compactItems items

def compactMembers : List (String × Json) → List String
  | [] => []
  | (key, json) :: members => (quoted key ++ ":" ++ compact json) :: compactMembers members
end

/-- Parts on lines of their own between two brackets; nothing is put between
the brackets when there is no part. -/
def bracketed (opening closing : String) (depth : Nat) (parts : List String) : String :=
  if parts.isEmpty then opening ++ closing
  else
    let indent := fun n => String.ofList ('\n' :: List.replicate (2 * n) ' ')
    opening ++ indent (depth + 1) ++ String.intercalate ("," ++ indent (depth + 1)) parts ++
      indent depth ++ closing

mutual
/-- The value on lines of its own, two blanks further in at every depth. -/
def pretty (depth : Nat) : Json → String
  | .array items => bracketed "[" "]" depth (prettyItems (depth + 1) items)
  | .object members => bracketed "\x7b" "\x7d" depth (prettyMembers (depth + 1) members)
  | .null => "null"
  | .bool true => "true"
  | .bool false => "false"
  | .number n => n.text
  | .string s => quoted s

def prettyItems (depth : Nat) : List Json → List String
  | [] => []
  | item :: items => pretty depth item :: prettyItems depth items

def prettyMembers (depth : Nat) : List (String × Json) → List String
  | [] => []
  | (key, json) :: members =>
    (quoted key ++ ": " ++ pretty depth json) :: prettyMembers depth members
end

end Json
end JobPipeline
