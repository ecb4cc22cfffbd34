import JobPipeline.Proofs.Json.Reading
import Mathlib.Data.List.TakeWhile

/-
Numerals and literals as the grammar of JSON has them.

The reader takes as much of a text as it can.  What it takes is a numeral or the inside of a
literal, and every numeral and every literal is taken whole: a literal whatever follows it,
a numeral unless what follows would go it on.
-/
namespace JobPipeline
namespace Json

/-! ## Numerals -/

structure Digits (cs : List Char) : Prop where
  ne_nil : cs ≠ []
  all : ∀ c ∈ cs, c.isDigit = true

/-- A point with the given digits behind it, or nothing. -/
inductive IsFraction : (part : List Char) → List Char → Prop
  | none : IsFraction [] []
  | digits {part : List Char} : Digits part → IsFraction part ('.' :: part)

inductive IsSign : (negative : Bool) → List Char → Prop
  | none : IsSign false []
  | plus : IsSign false ['+']
  | minus : IsSign true ['-']

/-- The letter for a power of ten with its exponent, or nothing. -/
inductive IsPower : Option Exponent → List Char → Prop
  | none : IsPower none []
  | digits {letter : Char} {negative : Bool} {sign ds : List Char} : letter = 'e' ∨ letter = 'E' →
      IsSign negative sign → Digits ds → IsPower (some ⟨negative, ds⟩) (letter :: (sign ++ ds))

/-- A numeral without its sign: no zero stands in front of other digits. -/
inductive IsNumeral : Spelling → List Char → Prop
  | parts {negative : Bool} {whole part fraction power : List Char} {e : Option Exponent} :
      Digits whole → (whole.head? = some '0' → whole = ['0']) → IsFraction part fraction →
      IsPower e power → IsNumeral ⟨negative, whole, part, e⟩ (whole ++ (fraction ++ power))

/-- The text does not go on with a character that could go on a numeral. -/
def Breaks (rest : List Char) : Prop :=
  ∀ c ∈ rest.head?, c.isDigit = false ∧ c ≠ '.' ∧ c ≠ 'e' ∧ c ≠ 'E'

namespace Digits

variable {ds rest : List Char} (h : Digits ds)
include h

theorem takeWhile_append (hrest : ∀ c ∈ rest.head?, c.isDigit = false) :
    (ds ++ rest).takeWhile Char.isDigit = ds := by
  rw [takeWhile_append_of_head ds hrest, List.takeWhile_eq_self_iff]
  exact h.all

theorem dropWhile_append (hrest : ∀ c ∈ rest.head?, c.isDigit = false) :
    (ds ++ rest).dropWhile Char.isDigit = rest := by
  have hnone : ds.dropWhile Char.isDigit = [] := List.dropWhile_eq_nil_iff.2 h.all
  rw [dropWhile_append_of_head ds hrest, hnone, List.nil_append]

end Digits

/-- The digits at the start of a text, if there are any. -/
theorem digits_takeWhile {cs : List Char} (h : cs.takeWhile Char.isDigit ≠ []) :
    Digits (cs.takeWhile Char.isDigit) :=
  ⟨h, fun c hc => List.all_eq_true.1 List.all_takeWhile c hc⟩

theorem unsigned_digits {ds : List Char} (h : Digits ds) (rest : List Char) :
    unsigned (ds ++ rest) = (false, ds ++ rest) := by
  obtain ⟨d, more, rfl⟩ := List.exists_cons_of_ne_nil h.ne_nil
  have hd : d.isDigit = true := h.all d List.mem_cons_self
  have hminus : d ≠ '-' := by
    rintro rfl
    cases hd
  have hplus : d ≠ '+' := by
    rintro rfl
    cases hd
  simp [unsigned, hminus, hplus]

theorem unsigned_sign {negative : Bool} {sign ds : List Char} (hsign : IsSign negative sign) (hds : Digits ds)
    (rest : List Char) : unsigned (sign ++ (ds ++ rest)) = (negative, ds ++ rest) := by
  cases hsign with
  | none => exact unsigned_digits hds rest
  | plus | minus => rfl

theorem exists_sign (cs : List Char) : ∃ sign, IsSign (unsigned cs).1 sign ∧ cs = sign ++ (unsigned cs).2 := by
  rw [unsigned.eq_def]
  split
  · exact ⟨['-'], .minus, rfl⟩
  · exact ⟨['+'], .plus, rfl⟩
  · exact ⟨[], .none, rfl⟩

theorem IsPower.exponentPart? {e : Option Exponent} {power rest : List Char} (h : IsPower e power)
    (hrest : Breaks rest) : exponentPart? (power ++ rest) = some (e, rest) := by
  cases h with
  | none =>
    cases rest with
    | nil => rfl
    | cons c rest =>
      obtain ⟨-, -, hlower, hupper⟩ := hrest c rfl
      rw [List.nil_append, exponentPart?_cons, if_neg (not_or.2 ⟨hlower, hupper⟩)]
  | digits hletter hsign hds =>
    have hhead : ∀ c ∈ rest.head?, c.isDigit = false := fun c hc => (hrest c hc).1
    rw [List.cons_append, List.append_assoc, exponentPart?_cons, if_pos hletter, unsigned_sign hsign hds]
    simp only [hds.takeWhile_append hhead, hds.dropWhile_append hhead, if_neg hds.ne_nil]

theorem exists_power {cs rest : List Char} {e : Option Exponent} (h : exponentPart? cs = some (e, rest)) :
    ∃ power, IsPower e power ∧ cs = power ++ rest := by
  cases cs with
  | nil =>
    cases h
    exact ⟨[], .none, rfl⟩
  | cons c cs =>
    rw [exponentPart?_cons] at h
    split at h
    · next hc =>
      split at h
      · cases h
      · next hdigits =>
        cases h
        obtain ⟨sign, hsign, hcs⟩ := exists_sign cs
        refine ⟨_, .digits hc hsign (digits_takeWhile hdigits), ?_⟩
        rw [List.cons_append, List.append_assoc, List.takeWhile_append_dropWhile, ← hcs]
    · cases h
      exact ⟨[], .none, rfl⟩

theorem IsNumeral.exists_digit {s : Spelling} {body : List Char} (h : IsNumeral s body) :
    ∃ d ds, body = d :: ds ∧ d.isDigit = true := by
  cases h with
  | @parts _ whole _ _ _ _ hwhole =>
    obtain ⟨d, ds, rfl⟩ := List.exists_cons_of_ne_nil hwhole.ne_nil
    exact ⟨d, _, rfl, hwhole.all d List.mem_cons_self⟩

/-- Behind the digits of a part stands what breaks it. -/
theorem IsPower.head_append {e : Option Exponent} {power rest : List Char} (h : IsPower e power)
    (hrest : Breaks rest) : ∀ c ∈ (power ++ rest).head?, c.isDigit = false ∧ c ≠ '.' := by
  intro c hc
  cases h with
  | none => exact ⟨(hrest c hc).1, (hrest c hc).2.1⟩
  | digits hletter =>
    cases hc
    rcases hletter with rfl | rfl <;> decide

theorem IsNumeral.spelling? {s : Spelling} {body rest : List Char} (h : IsNumeral s body) (hrest : Breaks rest) :
    spelling? s.negative (body ++ rest) = some (s, rest) := by
  cases h with
  | @parts negative whole part fraction power e hwhole hzero hfraction hpower =>
    have hexponent := hpower.exponentPart? hrest
    have hnext := hpower.head_append hrest
    have hhead : ∀ c ∈ (power ++ rest).head?, c.isDigit = false := fun c hc => (hnext c hc).1
    have hleading : ¬(whole = [] ∨ (1 < whole.length ∧ whole.head? = some '0')) := by
      rintro (hnil | ⟨hlength, hzeroHead⟩)
      · exact hwhole.ne_nil hnil
      · rw [hzero hzeroHead] at hlength
        exact absurd hlength (by decide)
    cases hfraction with
    | none =>
      have hpoint : pointed (power ++ rest) = none := by
        rw [pointed.eq_def]
        split
        · next heq => exact absurd rfl (hnext '.' (by rw [heq]; rfl)).2
        · rfl
      rw [List.nil_append, List.append_assoc, spelling?_eq, hwhole.takeWhile_append hhead,
        hwhole.dropWhile_append hhead, if_neg hleading]
      simp only [hpoint, hexponent, Option.map_some]
    | digits hpart =>
      have hpoint : ∀ c ∈ ('.' :: (part ++ (power ++ rest))).head?, c.isDigit = false := by
        intro c hc
        cases hc
        rfl
      rw [List.append_assoc, List.cons_append, List.cons_append, List.append_assoc, spelling?_eq,
        hwhole.takeWhile_append hpoint, hwhole.dropWhile_append hpoint, if_neg hleading]
      simp only [pointed, hpart.takeWhile_append hhead, hpart.dropWhile_append hhead, if_neg hpart.ne_nil,
        hexponent, Option.map_some]

/-- What is read as a numeral is one, with the sign that was read before it. -/
theorem exists_numeral {negative : Bool} {cs rest : List Char} {s : Spelling}
    (h : spelling? negative cs = some (s, rest)) :
    ∃ body, IsNumeral s body ∧ s.negative = negative ∧ cs = body ++ rest := by
  have hcs : cs = cs.takeWhile Char.isDigit ++ cs.dropWhile Char.isDigit :=
    List.takeWhile_append_dropWhile.symm
  rw [spelling?_eq] at h
  split at h
  · cases h
  · next hleading =>
    rw [not_or] at hleading
    have hwhole := digits_takeWhile hleading.1
    have hzero : (cs.takeWhile Char.isDigit).head? = some '0' → cs.takeWhile Char.isDigit = ['0'] := by
      intro hhead
      obtain ⟨more, hmore⟩ := List.head?_eq_some_iff.1 hhead
      cases more with
      | nil => exact hmore
      | cons d more =>
        refine absurd ⟨?_, hhead⟩ hleading.2
        rw [hmore]
        simp only [List.length_cons]
        omega
    cases hpoint : pointed (cs.dropWhile Char.isDigit) with
    | none =>
      simp only [hpoint] at h
      obtain ⟨⟨e, left⟩, hexponent, heq⟩ := Option.map_eq_some_iff.1 h
      cases heq
      obtain ⟨power, hpower, hrest⟩ := exists_power hexponent
      refine ⟨_, .parts hwhole hzero .none hpower, rfl, ?_⟩
      rw [List.nil_append, List.append_assoc, ← hrest, ← hcs]
    | some behind =>
      have hdrop : cs.dropWhile Char.isDigit = '.' :: behind := by
        rw [pointed.eq_def] at hpoint
        split at hpoint
        · next heq =>
          cases hpoint
          exact heq
        · cases hpoint
      simp only [hpoint] at h
      split at h
      · cases h
      · next hpart =>
        obtain ⟨⟨e, left⟩, hexponent, heq⟩ := Option.map_eq_some_iff.1 h
        cases heq
        obtain ⟨power, hpower, hrest⟩ := exists_power hexponent
        refine ⟨_, .parts hwhole hzero (.digits (digits_takeWhile hpart)) hpower, rfl, ?_⟩
        rw [List.append_assoc, List.cons_append, List.cons_append, List.append_assoc, ← hrest,
          List.takeWhile_append_dropWhile, ← hdrop, ← hcs]

/-- What is taken in of a numeral. -/
def Spelling.json? (scope : Scope) (s : Spelling) : Option Json :=
  match scope with
  | .nothing => some .null
  | _ => s.number?.map .number

theorem numberTail?_eq (scope : Scope) (negative : Bool) (cs : List Char) :
    numberTail? scope negative cs =
      (spelling? negative cs).bind fun (s, rest) => (s.json? scope).map fun v => (v, rest) := by
  rw [numberTail?.eq_def]
  cases spelling? negative cs with
  | none => rfl
  | some found =>
    cases scope <;> simp only [Option.bind_some, Spelling.json?, Option.map_map, Function.comp_def, Option.map_some]

/-- The value of a numeral, as far as it is taken in. -/
def numeralValue? (scope : Scope) (negative : Bool) (body : List Char) : Option Json :=
  (numberTail? scope negative body).map Prod.fst

theorem breaks_nil : Breaks [] := fun c hc => by cases hc

theorem numeralValue?_numeral {s : Spelling} {body : List Char} (h : IsNumeral s body) (scope : Scope) :
    numeralValue? scope s.negative body = s.json? scope := by
  have halone := h.spelling? breaks_nil
  rw [List.append_nil] at halone
  rw [numeralValue?, numberTail?_eq, halone, Option.bind_some, Option.map_map]
  exact Option.map_id'

theorem numberTail?_numeral {s : Spelling} {body rest : List Char} (h : IsNumeral s body) (scope : Scope)
    (hrest : Breaks rest) :
    numberTail? scope s.negative (body ++ rest) =
      (numeralValue? scope s.negative body).map fun v => (v, rest) := by
  rw [numeralValue?_numeral h, numberTail?_eq, h.spelling? hrest, Option.bind_some]

theorem exists_numeral_of_numberTail? {scope : Scope} {negative : Bool} {cs rest : List Char} {v : Json}
    (h : numberTail? scope negative cs = some (v, rest)) :
    ∃ s body, IsNumeral s body ∧ s.negative = negative ∧ cs = body ++ rest ∧
      numeralValue? scope negative body = some v := by
  rw [numberTail?_eq] at h
  obtain ⟨⟨s, left⟩, hspelling, hvalue⟩ := Option.bind_eq_some_iff.1 h
  obtain ⟨_, hjson, heq⟩ := Option.map_eq_some_iff.1 hvalue
  cases heq
  obtain ⟨body, hbody, rfl, hcs⟩ := exists_numeral hspelling
  exact ⟨s, body, hbody, rfl, hcs, by rw [numeralValue?_numeral hbody, hjson]⟩

/-! ## Literals -/

/-- The inside of a literal: characters, and escapes of one letter or of four digits. -/
inductive IsLiteral : List Char → Prop
  | nil : IsLiteral []
  | plain {c : Char} {cs : List Char} : c ≠ '"' → c ≠ '\\' → ¬c.toNat < 32 → IsLiteral cs → IsLiteral (c :: cs)
  | letter {e : Char} {cs : List Char} : e ∈ ['"', '\\', '/', 'b', 'f', 'n', 'r', 't'] → IsLiteral cs →
      IsLiteral ('\\' :: e :: cs)
  | number {a b c d : Char} {cs : List Char} : (∀ x ∈ [a, b, c, d], (Numeral.hexValue? x).isSome = true) →
      IsLiteral cs → IsLiteral ('\\' :: 'u' :: a :: b :: c :: d :: cs)

theorem isSome_letterEscape?_iff {e : Char} :
    (letterEscape? e).isSome = true ↔ e ∈ ['"', '\\', '/', 'b', 'f', 'n', 'r', 't'] := by
  simp only [letterEscape?, List.mem_cons, List.not_mem_nil, or_false]
  grind

theorem isSome_hexNumber?_iff {a b c d : Char} :
    (Numeral.hexNumber? [a, b, c, d]).isSome = true ↔
      ∀ x ∈ [a, b, c, d], (Numeral.hexValue? x).isSome = true := by
  simp only [Numeral.hexNumber?, List.foldl_cons, List.foldl_nil, List.forall_mem_cons, List.not_mem_nil]
  cases Numeral.hexValue? a <;> cases Numeral.hexValue? b <;> cases Numeral.hexValue? c <;>
    cases Numeral.hexValue? d <;> simp

theorem IsLiteral.exists_parts {inner : List Char} (h : IsLiteral inner) :
    ∃ parts, ∀ rest, stringParts? (inner ++ '"' :: rest) = some (parts, rest) := by
  induction h with
  | nil => exact ⟨[], fun rest => by simp [stringParts?]⟩
  | @plain c cs hquote hescape hcontrol _ ih =>
    obtain ⟨parts, hparts⟩ := ih
    refine ⟨.char c :: parts, fun rest => ?_⟩
    rw [List.cons_append, stringParts?_plain hquote hescape hcontrol, hparts]
    rfl
  | @letter e cs he _ ih =>
    obtain ⟨parts, hparts⟩ := ih
    obtain ⟨c, hc⟩ := Option.isSome_iff_exists.1 (isSome_letterEscape?_iff.2 he)
    have hunit : e ≠ 'u' := by
      rintro rfl
      exact absurd he (by decide)
    refine ⟨.char c :: parts, fun rest => ?_⟩
    rw [List.cons_append, List.cons_append, stringParts?_letter hunit hc, hparts]
    rfl
  | number hdigits _ ih =>
    obtain ⟨parts, hparts⟩ := ih
    obtain ⟨n, hn⟩ := Option.isSome_iff_exists.1 (isSome_hexNumber?_iff.2 hdigits)
    refine ⟨.unit n :: parts, fun rest => ?_⟩
    simp only [List.cons_append]
    rw [stringParts?_number hn, hparts]
    rfl

theorem exists_literal {cs rest : List Char} {parts : List StringPart}
    (h : stringParts? cs = some (parts, rest)) : ∃ inner, IsLiteral inner ∧ cs = inner ++ '"' :: rest := by
  fun_induction stringParts? cs generalizing parts with
  | case1 => cases h
  | case2 a b c d more n parts' left hmore hhex ih =>
    cases h
    obtain ⟨inner, hinner, rfl⟩ := ih hmore
    exact ⟨_, .number (isSome_hexNumber?_iff.1 (by rw [hhex]; rfl)) hinner, rfl⟩
  | case3 => cases h
  | case4 e more hunit c parts' left hmore hletter ih =>
    cases h
    obtain ⟨inner, hinner, rfl⟩ := ih hmore
    exact ⟨_, .letter (isSome_letterEscape?_iff.1 (by rw [hletter]; rfl)) hinner, rfl⟩
  | case5 => cases h
  | case6 more =>
    cases h
    exact ⟨[], .nil, rfl⟩
  | case7 => cases h
  | case8 c more _ _ hquote hcontrol ih =>
    rw [not_or] at hcontrol
    obtain ⟨⟨parts', left⟩, hmore, heq⟩ := Option.map_eq_some_iff.1 h
    cases heq
    obtain ⟨inner, hinner, rfl⟩ := ih hmore
    exact ⟨_, .plain hquote hcontrol.2 hcontrol.1 hinner, rfl⟩

/-- Each piece of a literal has a character of the text, and the closing quote is in
none. -/
theorem length_stringParts? {cs rest : List Char} {parts : List StringPart}
    (h : stringParts? cs = some (parts, rest)) : parts.length < cs.length := by
  fun_induction stringParts? cs generalizing parts rest with
  | case1 => cases h
  | case2 a b c d cs n more rest' hmore hunit ih =>
    cases h
    have hlength := ih hmore
    simp only [List.length_cons]
    omega
  | case3 => cases h
  | case4 e cs hunit c more rest' hmore hletter ih =>
    cases h
    have hlength := ih hmore
    simp only [List.length_cons]
    omega
  | case5 => cases h
  | case6 =>
    cases h
    simp
  | case7 => cases h
  | case8 c cs hescape hunit hquote hplain ih =>
    obtain ⟨⟨more, rest'⟩, hmore, hpair⟩ := Option.map_eq_some_iff.1 h
    cases hpair
    have hlength := ih hmore
    simp only [List.length_cons]
    omega

/-- What is taken in of a literal. -/
def partsText? (scope : Scope) (parts : List StringPart) : Option String :=
  match scope with
  | .nothing => some ""
  | _ => (charsOfParts? parts).map String.ofList

theorem stringTail?_eq (scope : Scope) (cs : List Char) :
    stringTail? scope cs =
      (stringParts? cs).bind fun (parts, rest) => (partsText? scope parts).map fun s => (s, rest) := by
  rw [stringTail?.eq_def]
  cases stringParts? cs with
  | none => rfl
  | some found =>
    cases scope <;> simp only [Option.bind_some, partsText?, Option.map_map, Function.comp_def, Option.map_some]

/-- The string that a literal stands for, as far as it is taken in. -/
def literalText? (scope : Scope) (inner : List Char) : Option String :=
  (stringTail? scope (inner ++ ['"'])).map Prod.fst

theorem stringTail?_literal {inner : List Char} (h : IsLiteral inner) (scope : Scope) (rest : List Char) :
    stringTail? scope (inner ++ '"' :: rest) = (literalText? scope inner).map fun s => (s, rest) := by
  obtain ⟨parts, hparts⟩ := h.exists_parts
  rw [literalText?, stringTail?_eq, stringTail?_eq, hparts rest, hparts []]
  simp only [Option.bind_some, Option.map_map, Function.comp_def]

theorem exists_literal_of_stringTail? {scope : Scope} {cs rest : List Char} {s : String}
    (h : stringTail? scope cs = some (s, rest)) :
    ∃ inner, IsLiteral inner ∧ cs = inner ++ '"' :: rest ∧ literalText? scope inner = some s := by
  have hparts := h
  rw [stringTail?_eq] at hparts
  obtain ⟨⟨parts, left⟩, hread, htext⟩ := Option.bind_eq_some_iff.1 hparts
  obtain ⟨_, -, heq⟩ := Option.map_eq_some_iff.1 htext
  cases heq
  obtain ⟨inner, hinner, rfl⟩ := exists_literal hread
  rw [stringTail?_literal hinner] at h
  obtain ⟨_, hinside, heq⟩ := Option.map_eq_some_iff.1 h
  cases heq
  exact ⟨inner, hinner, rfl, hinside⟩

end Json
end JobPipeline
