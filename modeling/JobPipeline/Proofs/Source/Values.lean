import JobPipeline.Proofs.Source.Attributes
import JobPipeline.Proofs.Source.Expressions

/-
Values between marks.

The grammar gives two values marks of their own, quotes and angle brackets, and
skips nothing between them.  The readers of both scan for the closing mark, one by
going past escapes and one by counting brackets; here the scanners are shown to be
the rules (`outcome_quoted`, `outcome_html`).  What the compiler writes between
quotes is read back from any text, and what may stand between angle brackets is
what the validator lets pass.
-/
namespace JobPipeline
namespace Source

/-- The rules of the values between marks. -/
inductive ValueRule where
  | quoted
  | quotedInner
  | html
  | htmlInner
  /-- A balanced pair of brackets, or a character that is no bracket. -/
  | htmlPart
deriving DecidableEq, Repr

namespace ValueRule

/-- A backslash with the character behind it, or any character but a quote. -/
def quotedPart : Expression ValueRule :=
  .choice (.seq (.char '\\') .any) (.seq (.not (.char '"')) .any)

def expression : ValueRule → Expression ValueRule
  | quoted => .enclosed '"' (.rule quotedInner) '"'
  | quotedInner => .many quotedPart
  | html => .enclosed '<' (.rule htmlInner) '>'
  | htmlInner => .many (.rule htmlPart)
  | htmlPart =>
    .choice (.enclosed '<' (.many (.rule htmlPart)) '>')
      (.seq (.not (.choice (.char '<') (.char '>'))) .any)

end ValueRule

/-- What a rule of the values comes to on a text. -/
abbrev Reads (rule : ValueRule) (cs : List Char) (out : Option (List Char × List Char)) : Prop :=
  Outcome ValueRule.expression (.rule rule) cs out

/-! ## Quotes -/

section Quotes

open ValueRule (quotedPart)

theorem quotedPart_escape (c : Char) (cs : List Char) :
    Outcome ValueRule.expression quotedPart ('\\' :: c :: cs) (some (['\\', c], cs)) :=
  .choiceFirst (.seq (.char '\\' _) (.any c cs))

theorem quotedPart_plain {c : Char} {cs : List Char} (hquote : c ≠ '"') (hescape : c = '\\' → cs = []) :
    Outcome ValueRule.expression quotedPart (c :: cs) (some ([c], cs)) := by
  have hfirst : Outcome ValueRule.expression (.seq (.char '\\') .any) (c :: cs) none := by
    by_cases hc : c = '\\'
    · -- A backslash at the very end of the text has no character to escape.
      subst hc
      rw [hescape rfl]
      exact .seqSecond (.char '\\' []) .anyEnd
    · exact .seqFirst (.charOther cs hc)
  exact .choiceSecond hfirst (.seq (.notRefused (.charOther cs hquote)) (.any c cs))

theorem quotedPart_none {cs : List Char} (h : cs = [] ∨ cs.head? = some '"') :
    Outcome ValueRule.expression quotedPart cs none := by
  have hfirst : Outcome ValueRule.expression (.seq (.char '\\') .any) cs none := by
    refine .seqFirst (.char_of_head? ?_)
    rcases h with rfl | h
    · nofun
    · rw [h]
      decide
  refine .choiceSecond hfirst ?_
  rcases h with rfl | h
  · exact .seqSecond (.notRefused (.charEnd '"')) .anyEnd
  · obtain ⟨rest, rfl⟩ := List.head?_eq_some_iff.1 h
    exact .seqFirst (.notTaken (.char '"' rest))

theorem scans_quotedParts : Scans ValueRule.expression (.many quotedPart) '"' quotedInner? := by
  intro cs
  fun_induction quotedInner? cs with
  | case1 => exact ⟨[], [], .manyEnd (quotedPart_none (.inl rfl)), rfl⟩
  | case2 c cs ih =>
    obtain ⟨taken, rest, hmany, hscan⟩ := ih
    refine ⟨'\\' :: c :: taken, rest, .manyStep (quotedPart_escape c cs) hmany, ?_⟩
    rw [hscan]
    split <;> rfl
  | case3 cs => exact ⟨[], '"' :: cs, .manyEnd (quotedPart_none (.inr rfl)), rfl⟩
  | case4 c cs hescape hquote ih =>
    obtain ⟨taken, rest, hmany, hscan⟩ := ih
    have hend : c = '\\' → cs = [] := by
      intro hc
      cases cs with
      | nil => rfl
      | cons d cs => exact absurd rfl (hescape d cs hc)
    refine ⟨c :: taken, rest, .manyStep (quotedPart_plain hquote hend) hmany, ?_⟩
    rw [hscan]
    split <;> rfl

theorem scans_quotedInner : Scans ValueRule.expression (.rule .quotedInner) '"' quotedInner? :=
  scans_quotedParts.rule

/-- The scanner for the closing quote is the rule for quoted values. -/
theorem outcome_quoted (cs : List Char) : Reads .quoted cs (between? '"' '"' quotedInner? cs) :=
  .rule (scans_quotedInner.outcome '"' cs)

/-- What the compiler writes between quotes is read up to the quote that it writes
behind it, and nothing of it is lost, whatever text follows. -/
theorem quoted_written (value rest : List Char) :
    (∀ out, Reads .quoted ('"' :: (Field.escapeQuoted value ++ '"' :: rest)) out ↔
      out = some ('"' :: (Field.escapeQuoted value ++ ['"']), rest)) ∧
    (∀ out, Reads .quotedInner (Field.escapeQuoted value ++ '"' :: rest) out ↔
      out = some (Field.escapeQuoted value, '"' :: rest)) ∧
    Field.unescapeQuoted (Field.escapeQuoted value) = value ∧
    Reader.quoted.Gives ('"' :: (Field.escapeQuoted value ++ '"' :: rest))
      (some (String.ofList value, rest)) := by
  have hscan := quotedInner?_escapeQuoted value rest
  refine ⟨fun out => ?_, (scans_quotedInner.taken hscan).iff_eq, Field.unescapeQuoted_escapeQuoted value, ?_⟩
  · have hquoted := outcome_quoted ('"' :: (Field.escapeQuoted value ++ '"' :: rest))
    rw [between?, if_pos rfl, hscan] at hquoted
    exact hquoted.iff_eq out
  · have hgives := Reader.gives_quoted hscan
    rwa [Field.unescapeQuoted_escapeQuoted] at hgives

end Quotes

/-! ## Angle brackets -/

section Angles

variable {depth : Nat} {c : Char} {cs taken more rest : List Char}

/-- Brackets that close go on with as many open as before them. -/
theorem anglesCloseFrom_append (h : anglesCloseFrom depth cs = true) (base : Nat) (rest : List Char) :
    anglesCloseFrom (base + depth) (cs ++ rest) = anglesCloseFrom base rest := by
  induction cs generalizing depth with
  | nil =>
    have hdepth : depth = 0 := by simpa [anglesCloseFrom] using h
    subst hdepth
    rfl
  | cons c cs ih =>
    by_cases hopen : c = '<'
    · subst hopen
      exact @ih (depth + 1) h
    · by_cases hclose : c = '>'
      · subst hclose
        cases depth with
        | zero => cases h
        | succ depth => exact @ih depth h
      · rw [anglesCloseFrom_plain hopen hclose] at h
        rw [List.cons_append, anglesCloseFrom_plain hopen hclose]
        exact ih h

/-- The scanner finds nothing behind brackets that close if it finds nothing with
them left out. -/
theorem anglesInner?_append_none (h : anglesCloseFrom depth cs = true) {base : Nat}
    (hrest : anglesInner? base rest = none) : anglesInner? (base + depth) (cs ++ rest) = none := by
  induction cs generalizing depth with
  | nil =>
    have hdepth : depth = 0 := by simpa [anglesCloseFrom] using h
    subst hdepth
    exact hrest
  | cons c cs ih =>
    rw [List.cons_append]
    by_cases hopen : c = '<'
    · subst hopen
      rw [anglesInner?_open, Option.map_eq_none_iff]
      exact @ih (depth + 1) h
    · by_cases hclose : c = '>'
      · subst hclose
        cases depth with
        | zero => cases h
        | succ depth =>
          rw [← Nat.add_assoc, anglesInner?_close, Option.map_eq_none_iff]
          exact @ih depth h
      · rw [anglesCloseFrom_plain hopen hclose] at h
        rw [anglesInner?_plain hopen hclose, Option.map_eq_none_iff]
        exact ih h

theorem htmlPart_plain (hopen : c ≠ '<') (hclose : c ≠ '>') (cs : List Char) :
    Reads .htmlPart (c :: cs) (some ([c], cs)) := by
  have hfirst : (c :: cs).head? ≠ some '<' := fun heq => hopen (Option.some.inj heq)
  have hnone : Outcome ValueRule.expression (.choice (.char '<') (.char '>')) (c :: cs) none :=
    .choiceSecond (.charOther cs hopen) (.charOther cs hclose)
  exact .rule (.choiceSecond (.enclosed_apart hfirst) (.seq (.notRefused hnone) (.any c cs)))

/-- The parts at the start of a text are balanced.  Where the bracket behind them
does not close, the scanner finds no bracket that does. -/
structure HtmlParts (cs taken rest : List Char) : Prop where
  many : Outcome ValueRule.expression (.many (.rule .htmlPart)) cs (some (taken, rest))
  balanced : anglesBalanced taken = true
  stuck : rest.head? ≠ some '>' → ∀ depth, anglesInner? depth cs = none

namespace HtmlParts

theorem nil : HtmlParts [] [] [] where
  many := by
    have hnone : Outcome ValueRule.expression (.choice (.char '<') (.char '>')) [] none :=
      .choiceSecond (.charEnd '<') (.charEnd '>')
    exact .manyEnd (.rule (.choiceSecond (.enclosed_apart nofun) (.seqSecond (.notRefused hnone) .anyEnd)))
  balanced := rfl
  stuck _ depth := by rw [anglesInner?]

theorem close (cs : List Char) : HtmlParts ('>' :: cs) [] ('>' :: cs) where
  many := by
    have hfirst : ('>' :: cs).head? ≠ some '<' := by
      rw [List.head?_cons]
      decide
    have hsome : Outcome ValueRule.expression (.choice (.char '<') (.char '>')) ('>' :: cs)
        (some (['>'], cs)) :=
      .choiceSecond (.charOther cs (by decide)) (.char '>' cs)
    exact .manyEnd (.rule (.choiceSecond (.enclosed_apart hfirst) (.seqFirst (.notTaken hsome))))
  balanced := rfl
  stuck h := absurd rfl h

theorem plain (h : HtmlParts cs taken rest) (hopen : c ≠ '<') (hclose : c ≠ '>') :
    HtmlParts (c :: cs) (c :: taken) rest where
  many := .manyStep (htmlPart_plain hopen hclose cs) h.many
  balanced := by
    rw [anglesBalanced, anglesCloseFrom_plain hopen hclose]
    exact h.balanced
  stuck hrest depth := by
    rw [anglesInner?_plain hopen hclose, h.stuck hrest depth]
    rfl

/-- A bracket and the one that closes it. -/
theorem pair {between : List Char} (h : HtmlParts cs taken ('>' :: between))
    (hmore : HtmlParts between more rest) :
    HtmlParts ('<' :: cs) ('<' :: (taken ++ ['>']) ++ more) rest where
  many := .manyStep (.rule (.choiceFirst (h.many.enclosed '<'))) hmore.many
  balanced := by
    have hclose := anglesCloseFrom_append h.balanced 1 (['>'] ++ more)
    rw [← List.append_assoc] at hclose
    exact hclose.trans hmore.balanced
  stuck hrest depth := by
    have hbehind : anglesInner? (depth + 1) ('>' :: between) = none := by
      rw [anglesInner?_close, hmore.stuck hrest depth]
      rfl
    rw [anglesInner?_open, h.many.text]
    exact Option.map_eq_none_iff.2 (anglesInner?_append_none h.balanced hbehind)

/-- A bracket that is never closed is no part, and no scanning behind it ends. -/
theorem unclosed (h : HtmlParts cs taken rest) (hrest : rest.head? ≠ some '>') :
    HtmlParts ('<' :: cs) [] ('<' :: cs) where
  many := by
    have hsome : Outcome ValueRule.expression (.choice (.char '<') (.char '>')) ('<' :: cs)
        (some (['<'], cs)) :=
      .choiceFirst (.char '<' cs)
    exact .manyEnd (.rule (.choiceSecond (h.many.enclosed_open hrest '<') (.seqFirst (.notTaken hsome))))
  balanced := rfl
  stuck _ depth := by
    rw [anglesInner?_open, h.stuck hrest (depth + 1)]
    rfl

end HtmlParts

theorem exists_htmlParts (cs : List Char) : ∃ taken rest, HtmlParts cs taken rest := by
  -- By length: behind a pair the parts go on at a place that only the pair tells.
  induction hlength : cs.length using Nat.strongRecOn generalizing cs with
  | ind n ih =>
    subst hlength
    cases cs with
    | nil => exact ⟨[], [], .nil⟩
    | cons c cs =>
      obtain ⟨taken, rest, hparts⟩ := ih cs.length (Nat.lt_succ_self _) cs rfl
      by_cases hopen : c = '<'
      · subst hopen
        by_cases hrest : rest.head? = some '>'
        · obtain ⟨between, rfl⟩ := List.head?_eq_some_iff.1 hrest
          have hless : between.length < ('<' :: cs).length := by
            rw [hparts.many.text, List.length_cons, List.length_append, List.length_cons]
            omega
          obtain ⟨more, rest', hmore⟩ := ih between.length hless between rfl
          exact ⟨_, rest', hparts.pair hmore⟩
        · exact ⟨[], _, hparts.unclosed hrest⟩
      · by_cases hclose : c = '>'
        · subst hclose
          exact ⟨[], _, .close cs⟩
        · exact ⟨_, rest, hparts.plain hopen hclose⟩

theorem scans_htmlInner : Scans ValueRule.expression (.rule .htmlInner) '>' (anglesInner? 0) := by
  refine Scans.rule fun cs => ?_
  obtain ⟨taken, rest, hparts⟩ := exists_htmlParts cs
  refine ⟨taken, rest, hparts.many, ?_⟩
  split
  · next hrest =>
    obtain ⟨tail, rfl⟩ := List.head?_eq_some_iff.1 hrest
    rw [hparts.many.text]
    exact anglesInner?_append hparts.balanced tail
  · next hrest => exact hparts.stuck hrest 0

/-- The scanner that counts brackets is the rule for values between them. -/
theorem outcome_html (cs : List Char) : Reads .html cs (between? '<' '>' (anglesInner? 0) cs) :=
  .rule (scans_htmlInner.outcome '<' cs)

theorem anglesBalanced_of_anglesInner? {inner : List Char} (h : anglesInner? 0 cs = some (inner, rest)) :
    anglesBalanced inner = true ∧ cs = inner ++ '>' :: rest := by
  obtain ⟨taken, behind, hparts⟩ := exists_htmlParts cs
  by_cases hbehind : behind.head? = some '>'
  · obtain ⟨tail, rfl⟩ := List.head?_eq_some_iff.1 hbehind
    have hscan := anglesInner?_append hparts.balanced tail
    rw [← hparts.many.text, h] at hscan
    cases hscan
    exact ⟨hparts.balanced, hparts.many.text⟩
  · rw [hparts.stuck hbehind 0] at h
    cases h

/-- Angle brackets balance exactly where the rule, and the reader as well, takes the
text between two brackets whole.  A balanced text is then taken up to the bracket
behind it, whatever follows. -/
theorem anglesBalanced_iff_html (value : List Char) :
    (anglesBalanced value = true ↔ ∃ taken, Reads .html ('<' :: (value ++ ['>'])) (some (taken, []))) ∧
    (anglesBalanced value = true ↔
      ∃ inner, Reader.html.Gives ('<' :: (value ++ ['>'])) (some (inner, []))) ∧
    (anglesBalanced value = true → ∀ rest,
      (∀ out, Reads .html ('<' :: (value ++ '>' :: rest)) out ↔
        out = some ('<' :: (value ++ ['>']), rest)) ∧
      (∀ out, Reads .htmlInner (value ++ '>' :: rest) out ↔ out = some (value, '>' :: rest)) ∧
      Reader.html.Gives ('<' :: (value ++ '>' :: rest)) (some (String.ofList value, rest))) := by
  have hread : ∀ rest, Reads .html ('<' :: (value ++ '>' :: rest))
      (between? '<' '>' (anglesInner? 0) ('<' :: (value ++ '>' :: rest))) := by
    intro rest
    exact outcome_html ('<' :: (value ++ '>' :: rest))
  have hbalanced : ∀ {inner}, anglesInner? 0 (value ++ ['>']) = some (inner, []) →
      anglesBalanced value = true := by
    intro inner hscan
    obtain ⟨hinner, htext⟩ := anglesBalanced_of_anglesInner? hscan
    rwa [List.append_cancel_right htext]
  refine ⟨⟨fun h => ?_, fun h => ?_⟩, ⟨fun h => ?_, fun h => ?_⟩, fun h rest => ?_⟩
  · have hout := hread []
    rw [between?, if_pos rfl, anglesInner?_append h] at hout
    exact ⟨_, hout⟩
  · obtain ⟨taken, htaken⟩ := h
    have hout := (hread []).unique htaken
    rw [between?, if_pos rfl] at hout
    obtain ⟨found, hscan, heq⟩ := Option.map_eq_some_iff.1 hout
    obtain ⟨inner, rest⟩ := found
    cases heq
    exact hbalanced hscan
  · exact ⟨_, Reader.gives_html (anglesInner?_append h [])⟩
  · obtain ⟨inner, hinner⟩ := h
    cases hscan : anglesInner? 0 (value ++ ['>']) with
    | none =>
      have hnone := Reader.gives_html_none hscan
      cases (hnone ⟨0, []⟩).symm.trans (hinner ⟨0, []⟩)
    | some found =>
      obtain ⟨inner, rest⟩ := found
      have hfound := Reader.gives_html hscan
      cases (hfound ⟨0, []⟩).symm.trans (hinner ⟨0, []⟩)
      exact hbalanced hscan
  · have hscan := anglesInner?_append h rest
    have hout := hread rest
    rw [between?, if_pos rfl, hscan] at hout
    exact ⟨hout.iff_eq, (scans_htmlInner.taken hscan).iff_eq, Reader.gives_html hscan⟩

theorem anglesBalanced_iff_html_nested :
    anglesBalanced "<a<\">\" >, <>".toList = true ∧
      Reads .html "<<a<\">\" >, <>>>] <".toList (some ("<<a<\">\" >, <>>".toList, ">] <".toList)) ∧
      ¬∃ taken, Reads .html "<1, \"a>b\">".toList (some (taken, [])) := by
  have hbalanced : anglesBalanced "<a<\">\" >, <>".toList = true := by decide
  have hunbalanced : ¬anglesBalanced "1, \"a>b\"".toList = true := by decide
  refine ⟨hbalanced, ?_, fun htaken => hunbalanced ?_⟩
  · exact (((anglesBalanced_iff_html _).2.2 hbalanced ">] <".toList).1 _).2 rfl
  · exact (anglesBalanced_iff_html "1, \"a>b\"".toList).1.2 htaken

end Angles

end Source
end JobPipeline
