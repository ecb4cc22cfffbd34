import JobPipeline.Json.Printer
import JobPipeline.Json.Reader

/-
The indented text of a value, character by character.

A text is put together from small ones, and its characters from theirs in the same way; so
what is read back from it can be followed without the text itself.
-/
namespace JobPipeline
namespace Json

def bracketedChars (opening closing : List Char) (depth : Nat) (parts : List (List Char)) : List Char :=
  if parts.isEmpty then opening ++ closing
  else
    let indent := fun n => '\n' :: List.replicate (2 * n) ' '
    opening ++ indent (depth + 1) ++ (',' :: indent (depth + 1)).intercalate parts ++ indent depth ++ closing

mutual
def prettyChars (depth : Nat) : Json → List Char
  | .array items => bracketedChars ['['] [']'] depth (prettyItemsChars (depth + 1) items)
  | .object members => bracketedChars ['\x7b'] ['\x7d'] depth (prettyMembersChars (depth + 1) members)
  | .null => ['n', 'u', 'l', 'l']
  | .bool true => ['t', 'r', 'u', 'e']
  | .bool false => ['f', 'a', 'l', 's', 'e']
  | .number n => n.text.toList
  | .string s => '"' :: s.toList.flatMap escapeChar ++ ['"']

def prettyItemsChars (depth : Nat) : List Json → List (List Char)
  | [] => []
  | item :: items => prettyChars depth item :: prettyItemsChars depth items

def prettyMembersChars (depth : Nat) : List (String × Json) → List (List Char)
  | [] => []
  | (key, json) :: members =>
    ('"' :: key.toList.flatMap escapeChar ++ '"' :: ':' :: ' ' :: prettyChars depth json) ::
      prettyMembersChars depth members
end

theorem toList_bracketed (opening closing : String) (depth : Nat) (parts : List String) :
    (bracketed opening closing depth parts).toList =
      bracketedChars opening.toList closing.toList depth (parts.map String.toList) := by
  rw [bracketed, bracketedChars, List.isEmpty_map]
  split
  · exact String.toList_append
  · simp only [String.toList_append, String.toList_intercalate, String.toList_ofList]
    rfl

theorem toList_quoted (s : String) :
    (quoted s).toList = '"' :: s.toList.flatMap escapeChar ++ ['"'] := String.toList_ofList

mutual
theorem toList_pretty (depth : Nat) : (json : Json) → (pretty depth json).toList = prettyChars depth json
  | .array items => by
    rw [pretty, prettyChars, toList_bracketed, toList_prettyItems]
    rfl
  | .object members => by
    rw [pretty, prettyChars, toList_bracketed, toList_prettyMembers]
    rfl
  | .null => by
    rw [pretty, prettyChars]
    rfl
  | .bool true => by
    rw [pretty, prettyChars]
    rfl
  | .bool false => by
    rw [pretty, prettyChars]
    rfl
  | .number n => by rw [pretty, prettyChars]
  | .string s => by rw [pretty, prettyChars, toList_quoted]

theorem toList_prettyItems (depth : Nat) : (items : List Json) →
    (prettyItems depth items).map String.toList = prettyItemsChars depth items
  | [] => by rw [prettyItems, prettyItemsChars, List.map_nil]
  | item :: items => by
    rw [prettyItems, prettyItemsChars, List.map_cons, toList_pretty, toList_prettyItems]

theorem toList_prettyMembers (depth : Nat) : (members : List (String × Json)) →
    (prettyMembers depth members).map String.toList = prettyMembersChars depth members
  | [] => by rw [prettyMembers, prettyMembersChars, List.map_nil]
  | (key, json) :: members => by
    rw [prettyMembers, prettyMembersChars, List.map_cons, toList_prettyMembers]
    simp only [String.toList_append, toList_quoted, toList_pretty]
    rw [List.append_assoc, List.append_assoc]
    rfl
end

/-- Reading the text back is reading its characters. -/
theorem readWithin?_pretty (scope : Scope) (depth : Nat) (json : Json) :
    readWithin? scope (pretty depth json) =
      match value? (2 * (prettyChars depth json).length + 2) mostDepth scope (prettyChars depth json) with
      | some (json, rest) => if skipSpace rest = [] then some json else none
      | none => none := by
  rw [← toList_pretty]
  rfl

end Json
end JobPipeline
