/-
Quoted values.

Between double quotes a backslash stands before a quote and before a backslash.
That is all a quoted attribute needs; a string in the preamble also writes its
control characters as escapes.
-/
namespace JobPipeline
namespace Field

def escapeQuotedChar (c : Char) : List Char :=
  if c = '"' ∨ c = '\\' then ['\\', c] else [c]

/-- A text as it stands between the quotes of an attribute. -/
def escapeQuoted (cs : List Char) : List Char := cs.flatMap escapeQuotedChar

/-- The text that stands between quotes: a backslash gives the character behind
it, and one at the very end stays. -/
def unescapeQuoted : List Char → List Char
  | [] => []
  | '\\' :: c :: cs => c :: unescapeQuoted cs
  | c :: cs => c :: unescapeQuoted cs

theorem unescapeQuoted_escapeQuoted (cs : List Char) :
    unescapeQuoted (escapeQuoted cs) = cs := by
  induction cs with
  | nil => rfl
  | cons c cs ih =>
    rw [escapeQuoted, List.flatMap_cons, ← escapeQuoted, escapeQuotedChar]
    split
    · simp [unescapeQuoted, ih]
    · next h =>
      have hc : c ≠ '\\' := fun hc => h (.inr hc)
      simp only [List.cons_append, List.nil_append]
      rw [unescapeQuoted, ih]
      exact fun _ _ hc' => absurd hc' hc

def upperHexDigit (n : Nat) : Char := (Nat.digitChar (n % 16)).toUpper

def fourHex (n : Nat) : List Char :=
  [upperHexDigit (n / 4096), upperHexDigit (n / 256), upperHexDigit (n / 16), upperHexDigit n]

end Field
end JobPipeline
