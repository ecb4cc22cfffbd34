import JobPipeline.Proofs.Source.Statements
import JobPipeline.Proofs.Text.Marks

/-
The ways to lay out the words of a text.

Between two words there may be blanks, line breaks and comments, any number of them and
in any order.  Nothing need be there, but where two names or bare values would run into
one.  Quoted values, values in angle brackets and marks say themselves where they end.
-/
namespace JobPipeline
namespace Source

/-! ## Between the words -/

def LineBreak (c : Char) : Prop := c = '\n' ∨ c = '\r'

instance : DecidablePred LineBreak := fun _ => inferInstanceAs (Decidable (_ ∨ _))

/-- A comment that goes on to the end of its line, without that end. -/
inductive LineComment : List Char → Prop
  | hash {body : List Char} : (∀ c ∈ body, ¬LineBreak c) → LineComment ('#' :: body)
  | slashes {body : List Char} : (∀ c ∈ body, ¬LineBreak c) → LineComment ('/' :: '/' :: body)

/-- Blanks, line breaks and comments. -/
inductive Filler : List Char → Prop
  | nil : Filler []
  | blank {c : Char} {more : List Char} : c = ' ' ∨ c = '\t' ∨ LineBreak c → Filler more →
      Filler (c :: more)
  | line {comment more : List Char} {c : Char} : LineComment comment → LineBreak c → Filler more →
      Filler (comment ++ c :: more)
  | block {body more : List Char} : ¬['*', '/'] <:+: body → Filler more →
      Filler ('/' :: '*' :: (body ++ '*' :: '/' :: more))

/-- What may stand at the end of a text, where a comment needs no line end. -/
inductive Tail : List Char → Prop
  | filler {tail : List Char} : Filler tail → Tail tail
  | comment {filler comment : List Char} : Filler filler → LineComment comment →
      Tail (filler ++ comment)

theorem isLineBreak_iff {c : Char} : isLineBreak c = true ↔ LineBreak c := by
  rw [isLineBreak, LineBreak, Bool.or_eq_true, beq_iff_eq, beq_iff_eq]

theorem isGap_of_lineBreak {c : Char} (h : LineBreak c) : isGap c = true := by
  rw [isGap, isLineBreak_iff.2 h, Bool.or_true]

theorem dropWhile_body {body : List Char} (h : ∀ c ∈ body, ¬LineBreak c) (rest : List Char) :
    (body ++ rest).dropWhile (fun c => !isLineBreak c) = rest.dropWhile fun c => !isLineBreak c := by
  refine List.dropWhile_append_of_pos fun c hc => ?_
  rw [Bool.not_eq_true', Bool.eq_false_iff]
  exact fun hbreak => h c hc (isLineBreak_iff.1 hbreak)

theorem LineComment.afterComment? {comment : List Char} (h : LineComment comment) (rest : List Char) :
    Source.afterComment? (comment ++ rest) = some (rest.dropWhile fun c => !isLineBreak c) := by
  cases h with
  | hash hbody => exact congrArg some (dropWhile_body hbody rest)
  | slashes hbody => exact congrArg some (dropWhile_body hbody rest)

/-- A comment is skipped, and so is what follows it. -/
theorem skipGaps_comment {c : Char} {cs rest : List Char} (hc : isGap c = false)
    (h : afterComment? (c :: cs) = some rest) : skipGaps (c :: cs) = skipGaps rest := by
  rw [skipGaps, hc, if_neg (by decide)]
  split
  · next hrest =>
    cases h.symm.trans hrest
    rfl
  · next hnone =>
    rw [h] at hnone
    cases hnone

theorem LineComment.skipGaps {comment : List Char} (h : LineComment comment) (rest : List Char) :
    Source.skipGaps (comment ++ rest) =
      Source.skipGaps (rest.dropWhile fun c => !isLineBreak c) := by
  have hafter := h.afterComment? rest
  cases h with
  | hash _ => exact skipGaps_comment (by decide) hafter
  | slashes _ => exact skipGaps_comment (by decide) hafter

theorem aroundMark?_body {body : List Char} (h : ¬['*', '/'] <:+: body) (rest : List Char) :
    Text.aroundMark? ['*', '/'] (body ++ '*' :: '/' :: rest) = some (body, rest) := by
  induction body with
  | nil => exact Text.aroundMark?_cons_some rfl
  | cons c body ih =>
    have hbody : ¬['*', '/'] <:+: body := fun hin => h (hin.trans (List.suffix_cons c body).isInfix)
    have hnone : Text.afterMark? ['*', '/'] (c :: (body ++ '*' :: '/' :: rest)) = none := by
      cases hafter : Text.afterMark? ['*', '/'] (c :: (body ++ '*' :: '/' :: rest)) with
      | none => rfl
      | some more =>
        obtain ⟨rfl, hslash⟩ := List.cons.inj (Text.afterMark?_eq_some.1 hafter)
        cases body with
        | nil => cases hslash
        | cons d body =>
          obtain ⟨rfl, -⟩ := List.cons.inj hslash
          exact absurd (List.prefix_append ['*', '/'] body).isInfix h
    rw [List.cons_append, Text.aroundMark?_cons_none hnone, ih hbody]
    rfl

theorem Filler.gap {filler : List Char} (h : Filler filler) : Gap filler := by
  induction h with
  | nil => exact gap_nil
  | blank hc _ ih =>
    refine gap_cons ?_ ih
    rcases hc with rfl | rfl | hbreak
    · rfl
    · rfl
    · exact isGap_of_lineBreak hbreak
  | line hcomment hc _ ih =>
    intro rest
    rw [List.append_assoc, hcomment.skipGaps, List.cons_append, List.dropWhile_cons,
      isLineBreak_iff.2 hc]
    exact gap_cons (isGap_of_lineBreak hc) ih rest
  | @block body more hbody _ ih =>
    intro rest
    have hafter : afterComment? ('/' :: '*' :: (body ++ '*' :: '/' :: (more ++ rest))) =
        some (more ++ rest) :=
      congrArg (Option.map Prod.snd) (aroundMark?_body hbody (more ++ rest))
    have hskip := skipGaps_comment (c := '/') (by decide) hafter
    rw [ih rest] at hskip
    simpa only [List.cons_append, List.append_assoc] using hskip

theorem Tail.skipGaps {tail : List Char} (h : Tail tail) : Source.skipGaps tail = [] := by
  cases h with
  | filler hfiller =>
    have hskip := hfiller.gap []
    rwa [List.append_nil, Source.skipGaps] at hskip
  | @comment filler comment hfiller hcomment =>
    have hskip := hcomment.skipGaps []
    rw [List.append_nil, List.dropWhile_nil, Source.skipGaps] at hskip
    rw [hfiller.gap, hskip]

/-! ## Words -/

/-- A word of the grammar as it is written.  A name or a bare value runs into what follows
it; a mark and a value with a mark at its end do not. -/
inductive Token where
  | word (text : List Char)
  | closed (first : Char) (text : List Char)

namespace Token

def text : Token → List Char
  | word text => text
  | closed first text => first :: text

def isWord : Token → Bool
  | word _ => true
  | closed .. => false

/-- Nothing that the token begins with goes on a word of the class. -/
def Parts (p : Char → Bool) : Token → Prop
  | word _ => True
  | closed first _ => p first = false

end Token

/-- The ways to lay out tokens, behind a word or not. -/
inductive Laid : (behindWord : Bool) → List Token → List Char → Prop
  | tail {behindWord : Bool} {tail : List Char} : Tail tail → Laid behindWord [] tail
  | token {behindWord : Bool} {filler text : List Char} {token : Token} {tokens : List Token} :
      Filler filler → (behindWord = true → token.isWord = true → filler ≠ []) →
      Laid token.isWord tokens text → Laid behindWord (token :: tokens) (filler ++ (token.text ++ text))

theorem Tail.apart {tail : List Char} (h : Tail tail) {p : Char → Bool} (hp : NoGap p) :
    Apart p tail := by
  have hskip := h.skipGaps
  cases tail with
  | nil => exact fun c hc => by cases hc
  | cons c tail =>
    intro d hd
    cases hd
    rw [Bool.eq_false_iff]
    intro hc
    rw [skipGaps_of_stops (stops_of_class hp hc tail)] at hskip
    cases hskip

/-- What follows a word does not go it on: it is another token, or something parts the two. -/
theorem Laid.apart {tokens : List Token} {text : List Char} (h : Laid true tokens text)
    {p : Char → Bool} (hp : NoGap p) (hparts : ∀ t ∈ tokens.head?, t.Parts p) : Apart p text := by
  cases h with
  | tail htail => exact htail.apart hp
  | @token _ filler text token tokens hfiller hbetween _ =>
    have hfirst := hparts token rfl
    cases token with
    | closed first more =>
      refine hfiller.gap.apart hp fun c hc => ?_
      cases hc
      exact hfirst
    | word name =>
      cases filler with
      | nil => exact absurd rfl (hbetween rfl rfl)
      | cons c filler => exact (Tail.filler hfiller).apart hp

/-- A closed token and what is laid out behind it. -/
theorem Laid.closed_inv {behindWord : Bool} {first : Char} {more text : List Char} {tokens : List Token}
    (h : Laid behindWord (.closed first more :: tokens) text) :
    ∃ filler rest, Filler filler ∧ text = filler ++ first :: (more ++ rest) ∧ Laid false tokens rest := by
  cases h with
  | token hfiller _ hrest => exact ⟨_, _, hfiller, rfl, hrest⟩

/-- A word and what is laid out behind it. -/
theorem Laid.word_inv {behindWord : Bool} {name text : List Char} {tokens : List Token}
    (h : Laid behindWord (.word name :: tokens) text) :
    ∃ filler rest, Filler filler ∧ text = filler ++ (name ++ rest) ∧ Laid true tokens rest := by
  cases h with
  | token hfiller _ hrest => exact ⟨_, _, hfiller, rfl, hrest⟩

end Source
end JobPipeline
