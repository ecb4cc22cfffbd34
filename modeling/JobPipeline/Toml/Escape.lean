import JobPipeline.Field.Quoting
import JobPipeline.Text.Blank

/-
Strings of the preamble: TOML basic strings on one line.
-/
namespace JobPipeline
namespace Toml

def escapeChar (c : Char) : List Char :=
  if c = '\\' ∨ c = '"' then ['\\', c]
  else if c = '\n' then ['\\', 'n']
  else if c = '\r' then ['\\', 'r']
  else if c = '\t' then ['\\', 't']
  else if Text.isControl c then '\\' :: 'u' :: Field.fourHex c.toNat
  else [c]

/-- A text as it stands between the quotes of a basic string. -/
def escape (cs : List Char) : List Char := cs.flatMap escapeChar

end Toml
end JobPipeline
