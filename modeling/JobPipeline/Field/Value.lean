import JobPipeline.Field.Token

/-
A field value as it is shown: the text, and the text with its tokens marked.
-/
namespace JobPipeline

structure FieldText where
  raw : String
  rich : String
deriving DecidableEq, Repr, Inhabited

namespace FieldText

/-- The value with its tokens marked. -/
def marked (raw : String) : FieldText :=
  ⟨raw, String.ofList (Field.highlight raw.toList)⟩

/-- The value as it is, the way it comes from a spec text. -/
def verbatim (raw : String) : FieldText := ⟨raw, raw⟩

end FieldText
end JobPipeline
