import JobPipeline.Proofs.Source.Lexemes
import JobPipeline.Proofs.Source.Reading
import JobPipeline.Source.Grammar

/-
Attributes are read back from any text that lays them out.

`AttributesText` is the writer's side of the grammar: keys and values in their
order, with any gaps between them.  The compiler's text is one layout, so nothing
about its line breaks and indents is needed here.

A reader skips the gaps behind a word before it knows what comes next, so a
repetition is followed up to gaps: where a text and what is left of it without
the gaps in front are told apart, the proofs are about the latter.
-/
namespace JobPipeline
namespace Source

/-! ## Gaps -/

theorem stops_cons {c : Char} (cs : List Char)
    (h : isGap c = false ∧ c ≠ '#' ∧ c ≠ '/') : Stops (c :: cs) := h

theorem skipGaps_cons {c : Char} (cs : List Char)
    (h : isGap c = false ∧ c ≠ '#' ∧ c ≠ '/') : skipGaps (c :: cs) = c :: cs :=
  skipGaps_of_stops (stops_cons cs h)

theorem skipGaps_word {name : List Char} (h : Identifier.isWord name = true)
    (rest : List Char) : skipGaps (name ++ rest) = name ++ rest :=
  skipGaps_of_stops (stops_of_isWord h rest)

theorem length_skipGaps_le (cs : List Char) : (skipGaps cs).length ≤ cs.length := by
  fun_induction skipGaps cs with
  | case1 => exact Nat.le_refl _
  | case2 c cs _ ih => exact Nat.le_succ_of_le ih
  | case3 c cs _ rest h ih => exact Nat.le_trans ih (Nat.le_of_lt (length_afterComment? h))
  | case4 => exact Nat.le_refl _

namespace Reader

theorem gives_gaps {cs rest : List Char} (h : skipGaps cs = rest) :
    gaps.Gives cs (some ((), rest)) := by
  subst h
  exact gives_scanning _ cs

theorem gives_gaps_append {gap : List Char} (hgap : Gap gap) {rest : List Char}
    (h : skipGaps rest = rest) : gaps.Gives (gap ++ rest) (some ((), rest)) :=
  gives_gaps ((hgap rest).trans h)

theorem gives_mark_char (c : Char) (rest : List Char) :
    (mark (String.ofList [c])).Gives (c :: rest) (some ((), rest)) := by
  have h := gives_mark (String.ofList [c]) rest
  rwa [String.toList_ofList] at h

theorem gives_mark_char_none {c : Char} {cs : List Char} (h : cs.head? ≠ some c) :
    (mark (String.ofList [c])).Gives cs none := by
  refine gives_mark_none ?_
  rw [String.toList_ofList]
  cases cs with
  | nil => rfl
  | cons d cs =>
    have hne : c ≠ d := fun heq => h (by rw [heq]; rfl)
    rw [Text.afterMark?, if_neg hne]

theorem gives_identifier {name rest : List Char} (h : Identifier.isWord name = true)
    (hrest : Apart Identifier.isRest rest) :
    identifier.Gives (name ++ rest) (some (String.ofList name, rest)) := by
  have hscan := gives_scanning identifier? (name ++ rest)
  rw [identifier?_append h hrest] at hscan
  exact hscan.rule _

theorem gives_identifier_none {cs : List Char} (h : Apart Identifier.isStart cs) :
    identifier.Gives cs none := by
  have hscan := gives_scanning identifier? cs
  have hnone : identifier? cs = none := by
    cases cs with
    | nil => rfl
    | cons c cs => rw [identifier?, h c rfl, if_neg (by decide)]
  rw [hnone] at hscan
  exact hscan.rule _

end Reader

/-! ## Values and attributes -/

/-- The ways to write a value: the value, and a text for it. -/
inductive ValueText : List Char → List Char → Prop
  | quoted (value : List Char) : ValueText value ('"' :: (Field.escapeQuoted value ++ ['"']))
  | angles {value : List Char} : anglesBalanced value = true →
      ValueText value ('<' :: (value ++ ['>']))
  | bare {value : List Char} : isBareLiteral value = true → ValueText value value

theorem ValueText.stops {value text : List Char} (h : ValueText value text) (rest : List Char) :
    Stops (text ++ rest) := by
  cases h with
  | quoted => exact stops_cons _ (by decide)
  | angles => exact stops_cons _ (by decide)
  | bare h =>
    cases value with
    | nil => cases h
    | cons c cs =>
      rw [isBareLiteral, Bool.and_eq_true, List.all_cons, Bool.and_eq_true] at h
      exact stops_of_class (p := JobPipeline.isBareChar) (by decide) h.2.1 _

namespace Reader

theorem gives_quoted {cs inner rest : List Char} (h : quotedInner? cs = some (inner, rest)) :
    quoted.Gives ('"' :: cs) (some (String.ofList (Field.unescapeQuoted inner), rest)) := by
  refine Gives.rule (fun f => ?_) _
  show (quotedInner? cs).map _ = _
  rw [h]
  rfl

theorem gives_html {cs inner rest : List Char} (h : anglesInner? 0 cs = some (inner, rest)) :
    html.Gives ('<' :: cs) (some (String.ofList inner, rest)) := by
  refine Gives.rule (fun f => ?_) _
  show (anglesInner? 0 cs).map _ = _
  rw [h]
  rfl

theorem gives_html_none {cs : List Char} (h : anglesInner? 0 cs = none) : html.Gives ('<' :: cs) none := by
  refine Gives.rule (fun f => ?_) _
  show (anglesInner? 0 cs).map _ = none
  rw [h]
  rfl

/-- A bare value alone does not say where it ends. -/
theorem gives_value {value text rest : List Char} (h : ValueText value text)
    (hrest : isBareLiteral text = true → Apart isBareChar rest) :
    (orElse quoted (orElse html bare)).Gives (text ++ rest) (some (String.ofList value, rest)) := by
  cases h with
  | quoted =>
    have hquoted := gives_quoted (quotedInner?_escapeQuoted value rest)
    rw [Field.unescapeQuoted_escapeQuoted] at hquoted
    rw [List.cons_append, List.append_assoc, List.singleton_append]
    exact hquoted.orElse
  | angles hbalanced =>
    have hhtml := gives_html (anglesInner?_append hbalanced rest)
    rw [List.cons_append, List.append_assoc, List.singleton_append]
    exact Gives.orElse_none (Gives.rule (fun f => rfl) _) hhtml.orElse
  | bare hbare =>
    cases value with
    | nil => cases hbare
    | cons c cs =>
      have hc : JobPipeline.isBareChar c = true := by
        rw [isBareLiteral, Bool.and_eq_true, List.all_cons, Bool.and_eq_true] at hbare
        exact hbare.2.1
      have hquote : c ≠ '"' := by
        rintro rfl
        exact absurd hc (by decide)
      have hangle : c ≠ '<' := by
        rintro rfl
        exact absurd hc (by decide)
      refine Gives.orElse_none (Gives.rule (fun f => ?_) _) ?_
      · rw [scanning, List.cons_append]
        split
        · next h => exact absurd (List.cons.inj h).1 hquote
        · rfl
      refine Gives.orElse_none (Gives.rule (fun f => ?_) _) (Gives.rule (fun f => ?_) _)
      · rw [scanning, List.cons_append]
        split
        · next h => exact absurd (List.cons.inj h).1 hangle
        · rfl
      · show (bare? ((c :: cs) ++ rest)).map _ = _
        rw [bare?_append hbare (hrest hbare)]
        rfl

theorem gives_pair {key gap gap' value text rest : List Char} (hkey : Identifier.isWord key = true)
    (hgap : Gap gap) (hgap' : Gap gap') (h : ValueText value text)
    (hrest : isBareLiteral text = true → Apart isBareChar rest) :
    pair.Gives (key ++ (gap ++ '=' :: (gap' ++ (text ++ rest))))
      (some ((String.ofList key, String.ofList value), rest)) := by
  have hend : Apart Identifier.isRest (gap ++ '=' :: (gap' ++ (text ++ rest))) :=
    hgap.apart (by decide) fun c hc => by
      cases hc
      decide
  refine Gives.rule ((gives_identifier hkey hend).bind ?_) _
  refine (gives_gaps_append hgap (skipGaps_cons _ (by decide))).bind ?_
  refine (gives_mark_char '=' _).bind ?_
  refine (gives_gaps_append hgap' (skipGaps_of_stops (h.stops rest))).bind ?_
  exact (gives_value h hrest).bind (gives_pure _ _)

/-- One attribute of a list, with the gaps around it and the separator behind it. -/
def listedPair : Reader (String × String) := do
  gaps
  let p ← pair
  gaps
  let _ ← optional (orElse (mark ",") (mark ";"))
  return p

theorem attributes_eq : attributes = rule .attributeList (do
    mark "["
    let pairs ← many listedPair
    gaps
    mark "]"
    return pairs) := rfl

end Reader

/-- A separator that may stand behind a word, or nothing. -/
def Separator (marks sep : List Char) : Prop := sep = [] ∨ ∃ c ∈ marks, sep = [c]

/-- The ways to write a list of attributes and its closing bracket, behind the
opening one. -/
inductive AttributesText : List (String × String) → List Char → Prop
  | close {gap : List Char} : Gap gap → AttributesText [] (gap ++ [']'])
  | pair {key value written gap gap₁ gap₂ gap₃ sep text : List Char}
      {pairs : List (String × String)} : Identifier.isWord key = true → Gap gap → Gap gap₁ →
      Gap gap₂ → ValueText value written → Gap gap₃ → Separator [',', ';'] sep →
      (isBareLiteral written = true → Apart isBareChar (gap₃ ++ (sep ++ text))) →
      AttributesText pairs text →
      AttributesText ((String.ofList key, String.ofList value) :: pairs)
        (gap ++ (key ++ (gap₁ ++ '=' :: (gap₂ ++ (written ++ (gap₃ ++ (sep ++ text)))))))

theorem Apart.append {p : Char → Bool} {cs : List Char} (h : Apart p cs) (hne : cs ≠ [])
    (rest : List Char) : Apart p (cs ++ rest) := by
  cases cs with
  | nil => exact absurd rfl hne
  | cons c cs => exact h

theorem AttributesText.ne_nil {pairs : List (String × String)} {text : List Char}
    (h : AttributesText pairs text) : text ≠ [] := by
  cases h with
  | close => simp
  | pair => simp

/-- The text without the gaps in front does not begin with one of the marks. -/
def Avoids (marks : List Char) (rest : List Char) : Prop :=
  Stops (skipGaps rest) ∧ Apart (marks.contains ·) (skipGaps rest)

theorem avoids_of_class {p : Char → Bool} (hp : NoGap p) {marks : List Char}
    (hmarks : marks.any p = false) {gap : List Char} (hgap : Gap gap) {c : Char}
    (hc : p c = true) (rest : List Char) : Avoids marks (gap ++ c :: rest) := by
  have hstops : Stops (c :: rest) := stops_of_class hp hc rest
  rw [Avoids, hgap, skipGaps_of_stops hstops]
  refine ⟨hstops, fun d hd => ?_⟩
  cases hd
  rw [Bool.eq_false_iff]
  intro hmem
  exact List.any_eq_false.1 hmarks c (List.contains_iff_mem.1 hmem) hc

theorem avoids_word {name : List Char} (h : Identifier.isWord name = true) {marks : List Char}
    (hmarks : marks.any Identifier.isStart = false) {gap : List Char} (hgap : Gap gap)
    (rest : List Char) : Avoids marks (gap ++ (name ++ rest)) := by
  cases name with
  | nil => cases h
  | cons c cs =>
    rw [Identifier.isWord, Bool.and_eq_true] at h
    exact avoids_of_class (p := Identifier.isStart) (by decide) hmarks hgap h.1 _

/-- A list of attributes goes on with a key or with the closing bracket. -/
theorem AttributesText.avoids {pairs : List (String × String)} {text : List Char}
    (h : AttributesText pairs text) (rest : List Char) : Avoids [',', ';'] (text ++ rest) := by
  cases h with
  | close hgap =>
    rw [List.append_assoc]
    exact avoids_of_class (p := (· == ']')) (by decide) (by decide) hgap rfl rest
  | pair hkey hgap =>
    rw [List.append_assoc, List.append_assoc]
    exact avoids_word hkey (by decide) hgap _

namespace Reader

/-- A reader of one of some marks. -/
structure Marks (r : Reader Unit) (marks : List Char) : Prop where
  takes : ∀ c ∈ marks, ∀ rest, r.Gives (c :: rest) (some ((), rest))
  refuses : ∀ cs, Apart (marks.contains ·) cs → r.Gives cs none
  stops : marks.all (fun c => !isGap c && c != '#' && c != '/') = true

theorem apart_head {marks : List Char} {c : Char} (hc : c ∈ marks) {cs : List Char}
    (h : Apart (marks.contains ·) cs) : cs.head? ≠ some c := by
  intro heq
  have hnot : marks.contains c = false := h c heq
  rw [List.contains_iff_mem.2 hc] at hnot
  cases hnot

theorem marks_separator : Marks (orElse (mark ",") (mark ";")) [',', ';'] where
  takes := by
    intro c hc rest
    rcases List.mem_cons.1 hc with rfl | hc
    · exact Gives.orElse (gives_mark_char ',' rest)
    · rw [List.mem_singleton.1 hc]
      refine Gives.orElse_none (gives_mark_char_none ?_) (gives_mark_char ';' rest)
      exact fun heq => absurd (Option.some.inj heq) (by decide)
  refuses := fun cs h => Gives.orElse_none
    (gives_mark_char_none (apart_head (by decide) h)) (gives_mark_char_none (apart_head (by decide) h))
  stops := by decide

theorem marks_semicolon : Marks (mark ";") [';'] where
  takes := by
    intro c hc rest
    rw [List.mem_singleton.1 hc]
    exact gives_mark_char ';' rest
  refuses := fun cs h => gives_mark_char_none (apart_head (by decide) h)
  stops := by decide

/-- A separator is taken if it is there; either way what is left begins where
the rest begins, up to gaps. -/
theorem Marks.gives_separator {r : Reader Unit} {marks : List Char} (hr : Marks r marks)
    {gap sep rest cs : List Char} (hgap : Gap gap) (hsep : Separator marks sep)
    (hrest : Avoids marks rest) (hcs : skipGaps cs = skipGaps (gap ++ (sep ++ rest))) {α : Type}
    (a : α) :
    ∃ next, skipGaps next = skipGaps rest ∧ next.length ≤ cs.length ∧
      (do
        gaps
        let _ ← optional r
        return a : Reader α).Gives cs (some (a, next)) := by
  have hlength := length_skipGaps_le cs
  rw [hgap] at hcs
  rcases hsep with rfl | ⟨c, hc, rfl⟩
  · rw [List.nil_append] at hcs
    rw [hcs] at hlength
    refine ⟨skipGaps rest, skipGaps_of_stops hrest.1, hlength, (gives_gaps hcs).bind ?_⟩
    exact (Gives.optional_none (hr.refuses _ hrest.2)).bind (gives_pure a _)
  · have hstops : isGap c = false ∧ c ≠ '#' ∧ c ≠ '/' := by
      simpa [and_assoc] using List.all_eq_true.1 hr.stops c hc
    rw [List.singleton_append, skipGaps_cons rest hstops] at hcs
    rw [hcs, List.length_cons] at hlength
    refine ⟨rest, rfl, Nat.le_of_succ_le hlength, (gives_gaps hcs).bind ?_⟩
    exact (Gives.optional (hr.takes c hc rest)).bind (gives_pure a _)

/-- One attribute is read, with what stands around it. -/
theorem gives_listedPair {key value written gap gap₁ gap₂ gap₃ sep rest : List Char}
    (hkey : Identifier.isWord key = true) (hgap : Gap gap) (hgap₁ : Gap gap₁) (hgap₂ : Gap gap₂)
    (hvalue : ValueText value written) (hgap₃ : Gap gap₃) (hsep : Separator [',', ';'] sep)
    (hapart : isBareLiteral written = true → Apart isBareChar (gap₃ ++ (sep ++ rest)))
    (hrest : Avoids [',', ';'] rest)
    {cs : List Char} (hcs : skipGaps cs = skipGaps
      (gap ++ (key ++ (gap₁ ++ '=' :: (gap₂ ++ (written ++ (gap₃ ++ (sep ++ rest)))))))) :
    ∃ next, skipGaps next = skipGaps rest ∧ next.length < cs.length ∧
      listedPair.Gives cs (some ((String.ofList key, String.ofList value), next)) := by
  rw [hgap, skipGaps_word hkey] at hcs
  obtain ⟨next, hnext, hlength, hgives⟩ := marks_separator.gives_separator hgap₃ hsep hrest rfl
    (String.ofList key, String.ofList value)
  refine ⟨next, hnext, ?_, (gives_gaps hcs).bind ?_⟩
  · have hle := length_skipGaps_le cs
    rw [hcs] at hle
    simp only [List.length_append, List.length_cons] at hle hlength
    omega
  · exact (gives_pair hkey hgap₁ hgap₂ hvalue hapart).bind hgives

/-- The attributes are read one by one, up to the closing bracket. -/
theorem repeats_listedPair {pairs : List (String × String)} {text : List Char}
    (h : AttributesText pairs text) (rest : List Char) {cs : List Char}
    (hcs : skipGaps cs = skipGaps (text ++ rest)) :
    ∃ last, Repeats listedPair cs pairs last ∧ skipGaps last = ']' :: rest := by
  induction h generalizing cs with
  | close hgap =>
    rw [List.append_assoc, hgap, List.singleton_append, skipGaps_cons rest (by decide)] at hcs
    refine ⟨cs, .stop ?_, hcs⟩
    refine (gives_gaps hcs).bind (Gives.bind_none ?_)
    refine Gives.rule (Gives.bind_none (gives_identifier_none ?_)) _
    intro c hc
    cases hc
    decide
  | @pair key value written gap gap₁ gap₂ gap₃ sep text pairs hkey hgap hgap₁ hgap₂ hvalue hgap₃
      hsep hapart htext ih =>
    have hapart' : isBareLiteral written = true →
        Apart isBareChar (gap₃ ++ (sep ++ (text ++ rest))) := by
      intro hbare
      have := (hapart hbare).append (by simp [htext.ne_nil]) rest
      simpa only [List.append_assoc] using this
    simp only [List.append_assoc, List.cons_append] at hcs
    obtain ⟨next, hnext, hless, hgives⟩ := gives_listedPair hkey hgap hgap₁ hgap₂ hvalue hgap₃ hsep
      hapart' (htext.avoids rest) hcs
    obtain ⟨last, hrepeats, hlast⟩ := ih hnext
    exact ⟨last, .step hgives hless hrepeats, hlast⟩

/-- A list of attributes is read back from any text that lays it out. -/
theorem gives_attributes {pairs : List (String × String)} {text : List Char}
    (h : AttributesText pairs text) (rest : List Char) :
    attributes.Gives ('[' :: (text ++ rest)) (some (pairs, rest)) := by
  obtain ⟨last, hrepeats, hlast⟩ := repeats_listedPair h rest rfl
  rw [attributes_eq]
  refine Gives.rule ((gives_mark_char '[' _).bind (hrepeats.many.bind ?_)) _
  exact (gives_gaps hlast).bind ((gives_mark_char ']' rest).bind (gives_pure _ _))

end Reader

end Source
end JobPipeline
