import JobPipeline.Proofs.Field.TokenLists
import JobPipeline.Proofs.Json.Lexemes
import JobPipeline.Proofs.Simulation.Values

/-
A field that is one token.

Such a field is the value that its token leads to, and null if it leads nowhere.  Where
text is read as a literal, that is in fields without quotes and in the items of an array,
the value goes through the reader of literals as well.  The reader knows strings by
nothing but what they say, so it takes a string that came from a task for text that was
typed: a string that reads as JSON does not come through, and all other values do.
-/
namespace JobPipeline

namespace Json

/-! ## What a path leads to -/

/-- Following the path from the first value, by the keys of objects and the positions in
arrays, comes to the second. -/
inductive Leads : Json → List String → Json → Prop
  | here (json : Json) : Leads json [] json
  | key {members : List (String × Json)} {name : String} {child json : Json} {path : List String} :
    Entries.find? name members = some child → Leads child path json →
      Leads (.object members) (name :: path) json
  | index {items : List Json} {segment : String} {n : Nat} {child json : Json} {path : List String} :
    Numeral.natural? Numeral.most64 segment = some n → items[n]? = some child →
      Leads child path json → Leads (.array items) (segment :: path) json

theorem descend?_eq_some_iff (root : Json) (path : List String) (json : Json) :
    root.descend? path = some json ↔ Leads root path json := by
  induction path generalizing root with
  | nil =>
    rw [descend?, Option.some.injEq]
    constructor
    · rintro rfl
      exact .here root
    · intro hleads
      cases hleads
      rfl
  | cons segment path ih =>
    rw [descend?, Option.bind_eq_some_iff]
    constructor
    · rintro ⟨child, hchild, hpath⟩
      rw [ih] at hpath
      cases root with
      | object members => exact .key hchild hpath
      | array items =>
        obtain ⟨n, hn, hitem⟩ := Option.bind_eq_some_iff.1 hchild
        exact .index hn hitem hpath
      | _ => cases hchild
    · intro hleads
      cases hleads with
      | key hchild hpath => exact ⟨_, hchild, (ih _).2 hpath⟩
      | index hn hitem hpath => exact ⟨_, Option.bind_eq_some_iff.2 ⟨_, hn, hitem⟩, (ih _).2 hpath⟩

/-! ## Strings that are read as literals -/

theorem length_charsOfParts? {parts : List StringPart} {cs : List Char}
    (h : charsOfParts? parts = some cs) : cs.length ≤ parts.length := by
  fun_induction charsOfParts? parts generalizing cs with
  | case1 =>
    cases h
    simp
  | case2 c parts ih =>
    obtain ⟨more, hmore, rfl⟩ := Option.map_eq_some_iff.1 h
    simp [ih hmore]
  | case3 n m parts hhigh hlow ih =>
    obtain ⟨more, hmore, rfl⟩ := Option.map_eq_some_iff.1 h
    have hlength := ih hmore
    simp only [List.length_cons]
    omega
  | case4 => cases h
  | case5 => cases h
  | case6 n m parts hhigh hlow ih =>
    obtain ⟨more, hmore, rfl⟩ := Option.map_eq_some_iff.1 h
    have hlength := ih hmore
    simp only [List.length_cons] at hlength ⊢
    omega
  | case7 => cases h
  | case8 n parts hlast hhalf ih =>
    obtain ⟨more, hmore, rfl⟩ := Option.map_eq_some_iff.1 h
    simp [ih hmore]

/-- A string that is read is shorter than its literal. -/
theorem length_stringTail? {cs rest : List Char} {s : String}
    (h : stringTail? .everything cs = some (s, rest)) : s.toList.length < cs.length := by
  unfold stringTail? at h
  split at h
  · cases h
  · next hscope => cases hscope
  · next parts tail hparts _ =>
    obtain ⟨chars, hchars, hpair⟩ := Option.map_eq_some_iff.1 h
    cases hpair
    have hlong := length_stringParts? hparts
    have hshort := length_charsOfParts? hchars
    rw [String.toList_ofList]
    omega

theorem numberTail?_ne_string (scope : Scope) (negative : Bool) (cs rest : List Char) (s : String) :
    numberTail? scope negative cs ≠ some (.string s, rest) := by
  intro h
  unfold numberTail? at h
  split at h
  · cases h
  · cases h
  · obtain ⟨n, -, hpair⟩ := Option.map_eq_some_iff.1 h
    cases hpair

theorem length_of_value? {fuel depth : Nat} {cs rest : List Char} {s : String}
    (h : value? fuel depth .everything cs = some (.string s, rest)) : s.toList.length < cs.length := by
  cases fuel with
  | zero => cases h
  | succ fuel =>
    rw [value?] at h
    split at h
    · cases h
    · cases h
    · cases h
    · next text htext =>
      have hskip : (skipSpace cs).length ≤ cs.length := (List.dropWhile_sublist isSpace).length_le
      obtain ⟨⟨t, rest'⟩, htail, hpair⟩ := Option.map_eq_some_iff.1 h
      cases hpair
      have hlength := length_stringTail? htail
      rw [htext, List.length_cons] at hskip
      omega
    · exact absurd h (numberTail?_ne_string _ _ _ _ _)
    · split at h
      · cases h
      · split at h
        · cases h
        · obtain ⟨items, -, hpair⟩ := Option.map_eq_some_iff.1 h
          cases hpair
    · split at h
      · cases h
      · split at h
        · cases h
        · obtain ⟨members, -, hpair⟩ := Option.map_eq_some_iff.1 h
          cases hpair
    · exact absurd h (numberTail?_ne_string _ _ _ _ _)

/-- No string reads as itself. -/
theorem valueOf?_ne_string (s : String) : valueOf? s ≠ some (.string s) := by
  intro h
  obtain ⟨json, hread, hcanonical⟩ := Option.map_eq_some_iff.1 h
  have hstring : json = .string s := by
    cases json with
    | string t => exact hcanonical
    | _ => cases hcanonical
  rw [hstring, read?, readWithin?] at hread
  split at hread
  · next json' rest hvalue =>
    split at hread
    · rw [Option.some.inj hread] at hvalue
      have hlength := length_of_value? hvalue
      omega
    · cases hread
  · cases hread

/-- The literal of a value is another value only for strings that read as JSON. -/
theorem literal_eq_self_iff (json : Json) :
    json.literal = json ↔ ∀ s, json = .string s → valueOf? s = none := by
  cases json with
  | string s =>
    cases hvalue : valueOf? s with
    | none => simp [literal, hvalue]
    | some other =>
      have hne : other ≠ .string s := fun heq => valueOf?_ne_string s (heq ▸ hvalue)
      simp [literal, hvalue, hne]
  | _ => simp [literal]

end Json

/-! ## Array items -/

namespace Reference

theorem trimmed_text (r : Reference) : Text.Trimmed r.text := Field.trimmed_token r.body

theorem Readable.similar_text {r : Reference} (h : r.Readable) : Field.Similar r.text [] := by
  have hneutral : ∀ c ∈ r.body, Field.Neutral c :=
    fun c hc => Field.neutral_of_class (h.isBodyChar c hc) (by decide)
  exact (Field.similar_parentheses hneutral).trans (Field.similar_nil_of_neutral hneutral)

/-- A token is the one item of a list, whatever blanks are around it. -/
theorem Readable.arrayItems_text {r : Reference} (h : r.Readable) {before behind : List Char}
    (hbefore : ∀ b ∈ before, Text.isBlank b = true) (hbehind : ∀ b ∈ behind, Text.isBlank b = true) :
    Field.arrayItems (before ++ r.text ++ behind) = [r.text] := by
  have hstrip : Field.stripBrackets r.text = r.text := by
    have hlast : r.text.getLast? = some ')' := List.getLast?_concat
    have hopening : Field.withoutOpening r.text = r.text := rfl
    rw [Field.stripBrackets_eq, hopening, Field.withoutClosing, hlast]
    rfl
  have hseparate : Field.Separate [r.text] :=
    Field.separate_of_similar_nil (List.forall_mem_singleton.2 h.similar_text)
  have hsplit : Field.splitTopLevel r.text = [r.text] :=
    hseparate.splitTopLevel (List.cons_ne_nil _ _)
  have hblank : r.text.all Text.isBlank = false := rfl
  rw [Field.arrayItems, List.append_assoc, Text.trim_append hbefore hbehind r.trimmed_text, hstrip,
    hblank, if_neg Bool.false_ne_true, hsplit, List.map_singleton, Text.trim_eq_self r.trimmed_text]
  rfl

end Reference

namespace Vars

variable {vars : Vars} {r : Reference} {json : Json}

/-- What a token comes to: the value that it leads to, and null if there is none. -/
inductive Yields (vars : Vars) (r : Reference) : Json → Prop
  | found {root json : Json} : vars.find? r.id = some root → Json.Leads root r.path json →
      Yields vars r json
  | missing : (∀ root json, vars.find? r.id = some root → ¬Json.Leads root r.path json) →
      Yields vars r .null

theorem Yields.lookup (h : vars.Yields r json) : (vars.lookup r).getD .null = json := by
  cases h with
  | found hroot hleads =>
    rw [Vars.lookup, hroot, Option.bind_some, (Json.descend?_eq_some_iff _ _ _).2 hleads]
    rfl
  | missing hnone =>
    cases hlookup : vars.lookup r with
    | none => rfl
    | some json =>
      obtain ⟨root, hroot, hpath⟩ := Option.bind_eq_some_iff.1 hlookup
      exact absurd ((Json.descend?_eq_some_iff _ _ _).1 hpath) (hnone root json hroot)

theorem resolveItem_text (h : r.Readable) (hvalue : vars.Yields r json) :
    vars.resolveItem r.text = json.literal := by
  have hblank : ∀ b ∈ ([] : List Char), Text.isBlank b = true := fun _ hb => absurd hb List.not_mem_nil
  have hresolved := resolveText_reference h hblank hblank vars
  rw [List.append_nil, List.nil_append, hvalue.lookup] at hresolved
  rw [resolveItem, Text.trim_eq_self r.trimmed_text]
  show (vars.resolveText (String.ofList r.text)).literal = _
  rw [hresolved]

/-- A field that is one token resolves to what the token comes to, and so does an item of
an array that is one.  In fields without quotes and in arrays that is so exactly for the
values other than strings that read as JSON. -/
theorem resolveField_reference (h : r.Readable) {before behind : List Char}
    (hbefore : ∀ b ∈ before, Text.isBlank b = true) (hbehind : ∀ b ∈ behind, Text.isBlank b = true)
    (hvalue : vars.Yields r json) :
    let raw := String.ofList (before ++ r.text ++ behind)
    (∀ style, style = .quoted ∨ style = .body ∨ style = .escaped →
      vars.resolveField style raw = json) ∧
    (vars.resolveField .bare raw = json ↔ ∀ s, json = .string s → Json.valueOf? s = none) ∧
    ∀ style, style = .array ∨ style = .incomingArray →
      (vars.resolveField style raw = .array [json] ↔
        ∀ s, json = .string s → Json.valueOf? s = none) ∧
      ∀ (list : String) (i : Nat), (Field.arrayItems (Field.unhighlight list.toList))[i]? = some r.text →
        ∃ values, vars.resolveField style list = .array values ∧
          (values[i]? = some json ↔ ∀ s, json = .string s → Json.valueOf? s = none) := by
  intro raw
  have htext : vars.resolveText raw = json := by
    rw [resolveText_reference h hbefore hbehind, hvalue.lookup]
  have hitem := resolveItem_text h hvalue
  have hkept := Json.literal_eq_self_iff json
  refine ⟨fun style hstyle => ?_, ?_, fun style hstyle => ⟨?_, fun list i hi => ?_⟩⟩
  · rcases hstyle with rfl | rfl | rfl <;> exact htext
  · show (vars.resolveText raw).literal = json ↔ _
    rw [htext, hkept]
  · have hitems : Field.arrayItems (Field.unhighlight raw.toList) = [r.text] := by
      rw [String.toList_ofList, (unmarked_around h hbefore hbehind).unhighlight]
      exact h.arrayItems_text hbefore hbehind
    have hvalues : vars.resolveField style raw = .array [json.literal] := by
      rcases hstyle with rfl | rfl <;> simp only [resolveField, hitems, List.map_singleton, hitem]
    rw [hvalues, ← hkept]
    simp
  · refine ⟨(Field.arrayItems (Field.unhighlight list.toList)).map vars.resolveItem, ?_, ?_⟩
    · rcases hstyle with rfl | rfl <;> rfl
    · rw [List.getElem?_map, hi, Option.map_some, hitem, Option.some.injEq, hkept]

/-- The number of a page that came as a string. -/
def pageVars : Vars := Dict.ofList [("fetch", .object [("page", .string "5")])]

def pageReference : Reference := ⟨"fetch", ["page"]⟩

theorem readable_pageReference : pageReference.Readable := by
  refine ⟨by decide, fun part hpart => ?_⟩
  rw [List.mem_singleton.1 hpart]
  exact ⟨by decide, List.all_eq_true.1 (by decide)⟩

theorem yields_pageVars : pageVars.Yields pageReference (.string "5") := by
  have hroot : pageVars.find? "fetch" = some (.object [("page", .string "5")]) := by decide
  exact .found hroot (.key rfl (.here _))

/-- In quotes the string is kept, and without them it becomes a number. -/
theorem resolveField_reference_page :
    pageReference.Readable ∧ (∀ b ∈ [' '], Text.isBlank b = true) ∧
      pageVars.Yields pageReference (.string "5") ∧
      pageVars.resolveField .quoted " $(fetch.page) " = .string "5" ∧
      pageVars.resolveField .bare " $(fetch.page) " ≠ .string "5" := by
  have hblank : ∀ b ∈ [' '], Text.isBlank b = true := List.all_eq_true.1 (by decide)
  have htext : String.ofList ([' '] ++ pageReference.text ++ [' ']) = " $(fetch.page) " := rfl
  obtain ⟨hquoted, hbare, -⟩ :=
    resolveField_reference readable_pageReference hblank hblank yields_pageVars
  rw [htext] at hquoted hbare
  refine ⟨readable_pageReference, hblank, yields_pageVars, hquoted .quoted (.inl rfl), fun heq => ?_⟩
  have hnone : Json.valueOf? "5" = none := hbare.1 heq "5" rfl
  exact absurd hnone (by decide +kernel)

end Vars
end JobPipeline
