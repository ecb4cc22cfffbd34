import JobPipeline.Proofs.Json.Lexemes
import Mathlib.Data.List.DropRight

/-
The texts that are JSON, and what the reader makes of each.

The grammar keeps a value as it is spelled: numerals and the insides of literals keep their
characters, so two texts of one tree are spelled alike but for the spaces between their
parts.  The reader takes in exactly the texts of the grammar.  What it makes of one depends
on the tree alone: numbers out of range, halves of surrogate pairs and brackets open too
deep are refused there, and only where they are taken in.
-/
namespace JobPipeline
namespace Json

/-- A value as it is spelled. -/
inductive Tree where
  | null
  | bool (b : Bool)
  | numeral (negative : Bool) (body : List Char)
  | literal (inner : List Char)
  | array (items : List Tree)
  | object (members : List (List Char × Tree))

/-- The nonterminals of the grammar.  An element is a value with spaces around it. -/
inductive Form where
  | value (t : Tree)
  | element (t : Tree)
  | items (ts : List Tree)
  | member (key : List Char) (t : Tree)
  | members (ms : List (List Char × Tree))

def Spaces (gap : List Char) : Prop := ∀ c ∈ gap, isSpace c = true

/-- The sign in front of a numeral. -/
def signChars : (negative : Bool) → List Char
  | true => ['-']
  | false => []

def quotedChars (inner : List Char) : List Char := '"' :: (inner ++ ['"'])

inductive Written : Form → List Char → Prop
  | null : Written (.value .null) ['n', 'u', 'l', 'l']
  | isTrue : Written (.value (.bool true)) ['t', 'r', 'u', 'e']
  | isFalse : Written (.value (.bool false)) ['f', 'a', 'l', 's', 'e']
  | numeral {s : Spelling} {body : List Char} : IsNumeral s body →
      Written (.value (.numeral s.negative body)) (signChars s.negative ++ body)
  | literal {inner : List Char} : IsLiteral inner → Written (.value (.literal inner)) (quotedChars inner)
  | noItems {gap : List Char} : Spaces gap → Written (.value (.array [])) ('[' :: (gap ++ [']']))
  | array {ts : List Tree} {text : List Char} : Written (.items ts) text →
      Written (.value (.array ts)) ('[' :: (text ++ [']']))
  | noMembers {gap : List Char} : Spaces gap → Written (.value (.object [])) ('\x7b' :: (gap ++ ['\x7d']))
  | object {ms : List (List Char × Tree)} {text : List Char} : Written (.members ms) text →
      Written (.value (.object ms)) ('\x7b' :: (text ++ ['\x7d']))
  | element {t : Tree} {before text after : List Char} : Spaces before → Written (.value t) text →
      Spaces after → Written (.element t) (before ++ (text ++ after))
  | lastItem {t : Tree} {text : List Char} : Written (.element t) text → Written (.items [t]) text
  | item {t : Tree} {ts : List Tree} {text more : List Char} : Written (.element t) text →
      Written (.items ts) more → Written (.items (t :: ts)) (text ++ ',' :: more)
  | member {key before after text : List Char} {t : Tree} : Spaces before → IsLiteral key → Spaces after →
      Written (.element t) text →
      Written (.member key t) (before ++ (quotedChars key ++ (after ++ ':' :: text)))
  | lastMember {key : List Char} {t : Tree} {text : List Char} : Written (.member key t) text →
      Written (.members [(key, t)]) text
  | members {key : List Char} {t : Tree} {ms : List (List Char × Tree)} {text more : List Char} :
      Written (.member key t) text → Written (.members ms) more →
      Written (.members ((key, t) :: ms)) (text ++ ',' :: more)

mutual
/-- What is taken in of a value, with at most `depth` brackets open inside it. -/
def Tree.within? : Tree → (depth : Nat) → Scope → Option Json
  | .null, _, _ => some .null
  | .bool b, _, _ => some (.bool b)
  | .numeral negative body, _, scope => numeralValue? scope negative body
  | .literal inner, _, scope => (literalText? scope inner).map .string
  | .array ts, depth, scope =>
    (scope.inside? depth).bind fun depth => (itemsWithin? ts depth scope).map .array
  | .object ms, depth, scope =>
    (scope.inside? depth).bind fun depth => (membersWithin? ms depth scope).map .object

def itemsWithin? : List Tree → (depth : Nat) → Scope → Option (List Json)
  | [], _, _ => some []
  | t :: ts, depth, scope =>
    (t.within? depth scope.item).bind fun v => (itemsWithin? ts depth scope.behind).map (v :: ·)

def membersWithin? : List (List Char × Tree) → (depth : Nat) → Scope → Option (List (String × Json))
  | [], _, _ => some []
  | (key, t) :: ms, depth, scope =>
    (literalText? scope key).bind fun key =>
      (t.within? depth (scope.member key)).bind fun v => (membersWithin? ms depth scope).map ((key, v) :: ·)
end

/-- What is taken in of a member. -/
def memberWithin? (key : List Char) (t : Tree) (depth : Nat) (scope : Scope) : Option (String × Json) :=
  (literalText? scope key).bind fun key => (t.within? depth (scope.member key)).map fun v => (key, v)

theorem membersWithin?_cons (key : List Char) (t : Tree) (ms : List (List Char × Tree)) (depth : Nat)
    (scope : Scope) :
    membersWithin? ((key, t) :: ms) depth scope =
      (memberWithin? key t depth scope).bind fun m => (membersWithin? ms depth scope).map (m :: ·) := by
  rw [membersWithin?, memberWithin?, Option.bind_assoc]
  simp only [Option.bind_map, Function.comp_def]

/-! ## Spaces -/

theorem skipSpace_append {gap : List Char} (h : Spaces gap) (cs : List Char) :
    skipSpace (gap ++ cs) = skipSpace cs := List.dropWhile_append_of_pos h

theorem exists_spaces (cs : List Char) : ∃ gap, Spaces gap ∧ cs = gap ++ skipSpace cs :=
  ⟨cs.takeWhile isSpace, fun c hc => List.all_eq_true.1 List.all_takeWhile c hc,
    List.takeWhile_append_dropWhile.symm⟩

theorem skipSpace_skipSpace (cs : List Char) : skipSpace (skipSpace cs) = skipSpace cs :=
  List.dropWhile_idempotent ..

theorem Breaks.append_spaces {rest gap : List Char} (h : Breaks rest) (hgap : Spaces gap) :
    Breaks (gap ++ rest) := by
  cases gap with
  | nil => exact h
  | cons c gap =>
    have hspace := hgap c List.mem_cons_self
    intro d hd
    cases hd
    refine ⟨?_, ?_, ?_, ?_⟩
    · simp only [isSpace, Bool.or_eq_true, beq_iff_eq] at hspace
      rcases hspace with ((rfl | rfl) | rfl) | rfl <;> rfl
    all_goals
      rintro rfl
      cases hspace

theorem breaks_cons {c : Char} (h : c = ',' ∨ c = ']' ∨ c = '\x7d') (rest : List Char) : Breaks (c :: rest) := by
  intro d hd
  cases hd
  rcases h with rfl | rfl | rfl <;> decide

theorem Written.exists_head {t : Tree} {text : List Char} (h : Written (.value t) text) :
    ∃ c cs, text = c :: cs ∧ isSpace c = false ∧ c ≠ ']' := by
  cases h with
  | null | isTrue | isFalse | literal | noItems | array | noMembers | object =>
    exact ⟨_, _, rfl, rfl, by decide⟩
  | @numeral s body hbody =>
    cases s.negative with
    | true => exact ⟨_, _, rfl, rfl, by decide⟩
    | false =>
      obtain ⟨d, ds, rfl, hd⟩ := hbody.exists_digit
      refine ⟨d, ds, rfl, (show IsMark d from .inl hd).isSpace, ?_⟩
      rintro rfl
      cases hd

/-! ## One step of the reader -/

/-- A part of a list and what follows it: the bracket that closes the list, or a comma with
more parts behind it. -/
def listed? {α : Type} (closing : Char) (more? : List Char → Option (List α × List Char)) (a : α)
    (cs : List Char) : Option (List α × List Char) :=
  match skipSpace cs with
  | [] => none
  | c :: rest =>
    if c = closing then some ([a], rest)
    else if c = ',' then (more? rest).map fun (as, rest) => (a :: as, rest)
    else none

/-- What stands behind an opening bracket: the bracket that closes it at once, or parts. -/
def enclosed? {α : Type} (closing : Char) (parts? : List Char → Option (List α × List Char))
    (cs : List Char) : Option (List α × List Char) :=
  match skipSpace cs with
  | [] => parts? []
  | c :: rest => if c = closing then some ([], rest) else parts? (c :: rest)

section Listed

variable {α : Type} {closing : Char} {more? : List Char → Option (List α × List Char)} {a : α}
  {cs rest : List Char} {as : List α}

theorem skipSpace_gap {gap : List Char} {c : Char} (hgap : Spaces gap) (hspace : isSpace c = false)
    (rest : List Char) : skipSpace (gap ++ c :: rest) = c :: rest := by
  rw [skipSpace_append hgap, skipSpace_cons hspace]

theorem listed?_last {after : List Char} (hafter : Spaces after) (hspace : isSpace closing = false)
    (rest : List Char) : listed? closing more? a (after ++ closing :: rest) = some ([a], rest) := by
  rw [listed?, skipSpace_gap hafter hspace]
  exact if_pos rfl

theorem listed?_next (more? : List Char → Option (List α × List Char)) (a : α) {after : List Char}
    (hafter : Spaces after) (hclosing : closing ≠ ',') (cs : List Char) :
    listed? closing more? a (after ++ ',' :: cs) = (more? cs).map fun (as, rest) => (a :: as, rest) := by
  have hcomma : isSpace ',' = false := rfl
  rw [listed?, skipSpace_gap hafter hcomma]
  exact if_neg hclosing.symm

/-- The last part, which may be refused. -/
theorem bind_listed?_last (more? : List Char → Option (List α × List Char)) (a? : Option α) {after : List Char}
    (hafter : Spaces after) (hspace : isSpace closing = false) (rest : List Char) :
    ((a?.map fun a => (a, after ++ closing :: rest)).bind fun (a, rest) => listed? closing more? a rest) =
      (a?.map ([·])).map fun as => (as, rest) := by
  cases a? with
  | none => rfl
  | some a => exact listed?_last hafter hspace rest

/-- A part with more behind it, of which either may be refused. -/
theorem bind_listed?_next (a? : Option α) {as? : Option (List α)} {after cs rest : List Char}
    (hafter : Spaces after) (hclosing : closing ≠ ',') (hmore : more? cs = as?.map fun as => (as, rest)) :
    ((a?.map fun a => (a, after ++ ',' :: cs)).bind fun (a, rest) => listed? closing more? a rest) =
      (a?.bind fun a => as?.map (a :: ·)).map fun as => (as, rest) := by
  cases a? with
  | none => rfl
  | some a =>
    show listed? closing more? a (after ++ ',' :: cs) = (as?.map (a :: ·)).map fun as => (as, rest)
    rw [listed?_next more? a hafter hclosing, hmore, Option.map_map, Option.map_map]
    rfl

theorem listed?_eq_some (h : listed? closing more? a cs = some (as, rest)) :
    (skipSpace cs = closing :: rest ∧ as = [a]) ∨
      ∃ left more, skipSpace cs = ',' :: left ∧ more? left = some (more, rest) ∧ as = a :: more := by
  rw [listed?] at h
  split at h
  · cases h
  · next c left hcs =>
    split at h
    · next hclosing =>
      cases h
      exact .inl ⟨by rw [hcs, hclosing], rfl⟩
    · split at h
      · next hcomma =>
        obtain ⟨⟨more, rest'⟩, hmore, heq⟩ := Option.map_eq_some_iff.1 h
        cases heq
        exact .inr ⟨left, more, by rw [hcs, hcomma], hmore, rfl⟩
      · cases h

theorem enclosed?_nothing {gap : List Char} (hgap : Spaces gap) (hspace : isSpace closing = false)
    (rest : List Char) : enclosed? closing more? (gap ++ closing :: rest) = some ([], rest) := by
  rw [enclosed?, skipSpace_gap hgap hspace]
  exact if_pos rfl

theorem enclosed?_parts {c : Char} (hskip : skipSpace cs = c :: rest) (hclosing : c ≠ closing) :
    enclosed? closing more? cs = more? (skipSpace cs) := by
  rw [enclosed?, hskip]
  exact if_neg hclosing

theorem enclosed?_eq_some (h : enclosed? closing more? cs = some (as, rest)) :
    (skipSpace cs = closing :: rest ∧ as = []) ∨ more? (skipSpace cs) = some (as, rest) := by
  rw [enclosed?] at h
  split at h
  · next hcs => exact .inr (hcs ▸ h)
  · next c left hcs =>
    split at h
    · next hclosing =>
      cases h
      exact .inl ⟨by rw [hcs, hclosing], rfl⟩
    · exact .inr (hcs ▸ h)

end Listed

section Steps

variable (fuel depth : Nat) (scope : Scope)

theorem value?_spaces {gap : List Char} (h : Spaces gap) (cs : List Char) :
    value? fuel depth scope (gap ++ cs) = value? fuel depth scope cs := by
  cases fuel with
  | zero => simp only [value?]
  | succ fuel => simp only [value?, skipSpace_append h]

theorem value?_quote (cs : List Char) :
    value? (fuel + 1) depth scope ('"' :: cs) =
      (stringTail? scope cs).map fun (s, rest) => (.string s, rest) := by
  rw [value?]
  rfl

theorem value?_bracket (cs : List Char) :
    value? (fuel + 1) depth scope ('[' :: cs) =
      (scope.inside? depth).bind fun depth =>
        (enclosed? ']' (items? fuel depth scope) cs).map fun (items, rest) => (.array items, rest) := by
  have hopening : isSpace '[' = false := rfl
  simp only [value?, skipSpace_cons hopening]
  cases scope.inside? depth with
  | none => rfl
  | some depth =>
    simp only [Option.bind_some, enclosed?]
    cases skipSpace cs with
    | nil => rfl
    | cons c rest =>
      by_cases hclosing : c = ']'
      · subst hclosing
        rfl
      · simp [hclosing]

theorem value?_brace (cs : List Char) :
    value? (fuel + 1) depth scope ('\x7b' :: cs) =
      (scope.inside? depth).bind fun depth =>
        (enclosed? '\x7d' (members? fuel depth scope) cs).map fun (members, rest) => (.object members, rest) := by
  have hopening : isSpace '\x7b' = false := rfl
  simp only [value?, skipSpace_cons hopening]
  cases scope.inside? depth with
  | none => rfl
  | some depth =>
    simp only [Option.bind_some, enclosed?]
    cases skipSpace cs with
    | nil => rfl
    | cons c rest =>
      by_cases hclosing : c = '\x7d'
      · subst hclosing
        rfl
      · simp [hclosing]

theorem items?_succ (cs : List Char) :
    items? (fuel + 1) depth scope cs =
      (value? fuel depth scope.item cs).bind fun (item, rest) =>
        listed? ']' (items? fuel depth scope.behind) item rest := by
  rw [items?]
  cases value? fuel depth scope.item cs with
  | none => rfl
  | some found =>
    obtain ⟨item, rest⟩ := found
    simp only [Option.bind_some, listed?]
    cases skipSpace rest with
    | nil => rfl
    | cons c rest =>
      by_cases hclosing : c = ']'
      · subst hclosing
        rfl
      · by_cases hcomma : c = ','
        · subst hcomma
          rfl
        · simp [hclosing, hcomma]

/-- The member at the start of a text. -/
def member? (cs : List Char) : Option ((String × Json) × List Char) :=
  match skipSpace cs with
  | '"' :: rest =>
    (stringTail? scope rest).bind fun (key, rest) =>
      match skipSpace rest with
      | ':' :: rest => (value? fuel depth (scope.member key) rest).map fun (v, rest) => ((key, v), rest)
      | _ => none
  | _ => none

theorem members?_succ (cs : List Char) :
    members? (fuel + 1) depth scope cs =
      (member? fuel depth scope cs).bind fun (member, rest) =>
        listed? '\x7d' (members? fuel depth scope) member rest := by
  rw [members?, member?]
  cases skipSpace cs with
  | nil => rfl
  | cons c rest =>
    by_cases hquote : c = '"'
    · subst hquote
      cases hkey : stringTail? scope rest with
      | none => simp only [hkey, Option.bind_none]
      | some found =>
        obtain ⟨key, left⟩ := found
        simp only [hkey, Option.bind_some]
        cases skipSpace left with
        | nil => rfl
        | cons d left =>
          by_cases hcolon : d = ':'
          · subst hcolon
            cases hvalue : value? fuel depth (scope.member key) left with
            | none => simp only [hvalue, Option.map_none, Option.bind_none]
            | some found =>
              obtain ⟨v, rest⟩ := found
              simp only [hvalue, Option.map_some, Option.bind_some, listed?]
              cases skipSpace rest with
              | nil => rfl
              | cons c rest =>
                by_cases hclosing : c = '\x7d'
                · subst hclosing
                  rfl
                · by_cases hcomma : c = ','
                  · subst hcomma
                    rfl
                  · simp [hclosing, hcomma]
          · simp [hcolon]
    · simp [hquote]

theorem items?_skipSpace (cs : List Char) :
    items? fuel depth scope (skipSpace cs) = items? fuel depth scope cs := by
  cases fuel with
  | zero => simp only [items?]
  | succ fuel =>
    obtain ⟨gap, hgap, hcs⟩ := exists_spaces cs
    have hvalue := value?_spaces fuel depth scope.item hgap (skipSpace cs)
    rw [← hcs] at hvalue
    rw [items?_succ, items?_succ, hvalue]

theorem members?_skipSpace (cs : List Char) :
    members? fuel depth scope (skipSpace cs) = members? fuel depth scope cs := by
  cases fuel with
  | zero => simp only [members?]
  | succ fuel => rw [members?_succ, members?_succ, member?, member?, skipSpace_skipSpace]

end Steps

/-! ## Every text of the grammar is taken in -/

/-- What the reader makes of a text, whatever follows it.  The spaces behind an element are
left to its surroundings. -/
def Reads : Form → List Char → Prop
  | .value t, text => ∀ fuel depth scope rest, 2 * text.length ≤ fuel → Breaks rest →
      value? fuel depth scope (text ++ rest) = (t.within? depth scope).map fun v => (v, rest)
  | .element t, text => ∃ after, Spaces after ∧ ∀ fuel depth scope rest, 2 * text.length ≤ fuel →
      Breaks rest →
      value? fuel depth scope (text ++ rest) = (t.within? depth scope).map fun v => (v, after ++ rest)
  | .items ts, text => ∀ fuel depth scope rest, 2 * text.length + 1 ≤ fuel →
      items? fuel depth scope (text ++ ']' :: rest) = (itemsWithin? ts depth scope).map fun vs => (vs, rest)
  | .member key t, text => ∃ after, Spaces after ∧ ∀ fuel depth scope rest, 2 * text.length ≤ fuel →
      Breaks rest →
      member? fuel depth scope (text ++ rest) =
        (memberWithin? key t depth scope).map fun m => (m, after ++ rest)
  | .members ms, text => ∀ fuel depth scope rest, 2 * text.length + 1 ≤ fuel →
      members? fuel depth scope (text ++ '\x7d' :: rest) =
        (membersWithin? ms depth scope).map fun ms => (ms, rest)

theorem Written.length_pos {t : Tree} {text : List Char} (h : Written (.value t) text) : 0 < text.length := by
  obtain ⟨c, cs, rfl, -⟩ := h.exists_head
  exact Nat.succ_pos _

/-- The text of the items of an array begins with no bracket that closes it. -/
theorem Written.exists_itemsHead {ts : List Tree} {text : List Char} (h : Written (.items ts) text) :
    ∃ c cs, c ≠ ']' ∧ ∀ rest, skipSpace (text ++ rest) = c :: (cs ++ rest) := by
  have helement : ∀ {t : Tree} {text : List Char}, Written (.element t) text →
      ∃ c cs, c ≠ ']' ∧ ∀ rest, skipSpace (text ++ rest) = c :: (cs ++ rest) := by
    intro t text h
    cases h with
    | @element _ before text after hbefore hvalue hafter =>
      obtain ⟨c, cs, rfl, hspace, hclosing⟩ := hvalue.exists_head
      refine ⟨c, cs ++ after, hclosing, fun rest => ?_⟩
      rw [List.append_assoc, skipSpace_append hbefore, List.cons_append, List.cons_append, skipSpace_cons hspace]
  cases h with
  | lastItem h => exact helement h
  | @item t ts text more h _ =>
    obtain ⟨c, cs, hclosing, hskip⟩ := helement h
    refine ⟨c, cs ++ ',' :: more, hclosing, fun rest => ?_⟩
    rw [List.append_assoc, hskip, List.append_assoc]

theorem Written.exists_membersHead {ms : List (List Char × Tree)} {text : List Char}
    (h : Written (.members ms) text) : ∃ cs, ∀ rest, skipSpace (text ++ rest) = '"' :: (cs ++ rest) := by
  have hmember : ∀ {key : List Char} {t : Tree} {text : List Char}, Written (.member key t) text →
      ∃ cs, ∀ rest, skipSpace (text ++ rest) = '"' :: (cs ++ rest) := by
    intro key t text h
    cases h with
    | @member _ _ after text _ hbefore _ _ _ =>
      refine ⟨key ++ '"' :: (after ++ ':' :: text), fun rest => ?_⟩
      rw [List.append_assoc, skipSpace_append hbefore, List.append_assoc, quotedChars, List.cons_append,
        skipSpace_cons rfl]
      simp only [List.append_assoc, List.cons_append, List.nil_append]
  cases h with
  | lastMember h => exact hmember h
  | @members _ _ _ text more h _ =>
    obtain ⟨cs, hskip⟩ := hmember h
    refine ⟨cs ++ ',' :: more, fun rest => ?_⟩
    rw [List.append_assoc, hskip, List.append_assoc]

theorem exists_fuel {fuel : Nat} (h : 0 < fuel) : ∃ f, fuel = f + 1 := ⟨fuel - 1, by omega⟩

section Parts

variable {t : Tree} {ts : List Tree} {ms : List (List Char × Tree)} {text gap key : List Char}

theorem reads_numeral {s : Spelling} {body : List Char} (h : IsNumeral s body) :
    Reads (.value (.numeral s.negative body)) (signChars s.negative ++ body) := by
  intro fuel depth scope rest hfuel hrest
  have hpos := (Written.numeral h).length_pos
  obtain ⟨fuel, rfl⟩ := exists_fuel (show 0 < fuel by omega)
  rw [Tree.within?, List.append_assoc, ← numberTail?_numeral h scope hrest]
  cases hnegative : s.negative with
  | true => exact value?_minus fuel depth scope _
  | false =>
    obtain ⟨d, ds, rfl, hd⟩ := h.exists_digit
    exact value?_digit fuel depth scope hd _

theorem reads_literal {inner : List Char} (h : IsLiteral inner) :
    Reads (.value (.literal inner)) (quotedChars inner) := by
  intro fuel depth scope rest hfuel _
  rw [quotedChars, List.length_cons] at hfuel
  obtain ⟨fuel, rfl⟩ := exists_fuel (show 0 < fuel by omega)
  rw [Tree.within?, quotedChars, List.cons_append, List.append_assoc, value?_quote, List.singleton_append,
    stringTail?_literal h, Option.map_map, Option.map_map]
  rfl

theorem reads_noItems (h : Spaces gap) : Reads (.value (.array [])) ('[' :: (gap ++ [']'])) := by
  intro fuel depth scope rest hfuel _
  rw [List.length_cons] at hfuel
  obtain ⟨fuel, rfl⟩ := exists_fuel (show 0 < fuel by omega)
  rw [Tree.within?, List.cons_append, List.append_assoc, value?_bracket]
  cases scope.inside? depth with
  | none => rfl
  | some depth =>
    rw [Option.bind_some, Option.bind_some, List.singleton_append, enclosed?_nothing h rfl, itemsWithin?]
    rfl

theorem reads_array (h : Written (.items ts) text) (ih : Reads (.items ts) text) :
    Reads (.value (.array ts)) ('[' :: (text ++ [']'])) := by
  intro fuel depth scope rest hfuel _
  rw [List.length_cons, List.length_append] at hfuel
  obtain ⟨fuel, rfl⟩ := exists_fuel (show 0 < fuel by omega)
  obtain ⟨c, cs, hclosing, hskip⟩ := h.exists_itemsHead
  rw [Tree.within?, List.cons_append, List.append_assoc, value?_bracket]
  cases scope.inside? depth with
  | none => rfl
  | some depth =>
    rw [Option.bind_some, Option.bind_some, List.singleton_append, enclosed?_parts (hskip _) hclosing,
      items?_skipSpace, ih fuel depth scope rest (by omega), Option.map_map, Option.map_map]
    rfl

theorem reads_noMembers (h : Spaces gap) : Reads (.value (.object [])) ('\x7b' :: (gap ++ ['\x7d'])) := by
  intro fuel depth scope rest hfuel _
  rw [List.length_cons] at hfuel
  obtain ⟨fuel, rfl⟩ := exists_fuel (show 0 < fuel by omega)
  rw [Tree.within?, List.cons_append, List.append_assoc, value?_brace]
  cases scope.inside? depth with
  | none => rfl
  | some depth =>
    rw [Option.bind_some, Option.bind_some, List.singleton_append, enclosed?_nothing h rfl, membersWithin?]
    rfl

theorem reads_object (h : Written (.members ms) text) (ih : Reads (.members ms) text) :
    Reads (.value (.object ms)) ('\x7b' :: (text ++ ['\x7d'])) := by
  intro fuel depth scope rest hfuel _
  rw [List.length_cons, List.length_append] at hfuel
  obtain ⟨fuel, rfl⟩ := exists_fuel (show 0 < fuel by omega)
  obtain ⟨cs, hskip⟩ := h.exists_membersHead
  rw [Tree.within?, List.cons_append, List.append_assoc, value?_brace]
  cases scope.inside? depth with
  | none => rfl
  | some depth =>
    rw [Option.bind_some, Option.bind_some, List.singleton_append, enclosed?_parts (hskip _) (by decide),
      members?_skipSpace, ih fuel depth scope rest (by omega), Option.map_map, Option.map_map]
    rfl

theorem reads_element {before after : List Char} (hbefore : Spaces before) (hafter : Spaces after)
    (ih : Reads (.value t) text) : Reads (.element t) (before ++ (text ++ after)) := by
  refine ⟨after, hafter, fun fuel depth scope rest hfuel hrest => ?_⟩
  rw [List.length_append, List.length_append] at hfuel
  rw [List.append_assoc, List.append_assoc, value?_spaces fuel depth scope hbefore]
  exact ih fuel depth scope (after ++ rest) (by omega) (hrest.append_spaces hafter)

theorem reads_lastItem (ih : Reads (.element t) text) : Reads (.items [t]) text := by
  intro fuel depth scope rest hfuel
  obtain ⟨fuel, rfl⟩ := exists_fuel (show 0 < fuel by omega)
  obtain ⟨after, hafter, ih⟩ := ih
  rw [items?_succ, ih fuel depth scope.item (']' :: rest) (by omega) (breaks_cons (.inr (.inl rfl)) rest),
    bind_listed?_last _ _ hafter rfl]
  simp only [itemsWithin?, Option.map_eq_bind]
  rfl

theorem reads_item {more : List Char} (ih : Reads (.element t) text) (ihmore : Reads (.items ts) more) :
    Reads (.items (t :: ts)) (text ++ ',' :: more) := by
  intro fuel depth scope rest hfuel
  rw [List.length_append, List.length_cons] at hfuel
  obtain ⟨fuel, rfl⟩ := exists_fuel (show 0 < fuel by omega)
  obtain ⟨after, hafter, ih⟩ := ih
  have hmore := ihmore fuel depth scope.behind rest (by omega)
  rw [items?_succ, List.append_assoc, List.cons_append,
    ih fuel depth scope.item _ (by omega) (breaks_cons (.inl rfl) _), itemsWithin?]
  exact bind_listed?_next _ hafter (by decide) hmore

theorem reads_member {before after : List Char} (hbefore : Spaces before) (hkey : IsLiteral key)
    (hafter : Spaces after) (ih : Reads (.element t) text) :
    Reads (.member key t) (before ++ (quotedChars key ++ (after ++ ':' :: text))) := by
  obtain ⟨behind, hbehind, ih⟩ := ih
  refine ⟨behind, hbehind, fun fuel depth scope rest hfuel hrest => ?_⟩
  have hlength : 2 * text.length ≤ fuel := by
    simp only [List.length_append, List.length_cons] at hfuel
    omega
  have hskip := skipSpace_gap hafter (c := ':') rfl (text ++ rest)
  have hquote := skipSpace_gap hbefore (c := '"') rfl (key ++ '"' :: (after ++ ':' :: (text ++ rest)))
  simp only [member?, quotedChars, List.append_assoc, List.cons_append, List.nil_append, hquote,
    stringTail?_literal hkey, memberWithin?]
  cases literalText? scope key with
  | none => rfl
  | some name =>
    simp only [Option.map_some, Option.bind_some, hskip]
    rw [ih fuel depth (scope.member name) rest hlength hrest, Option.map_map, Option.map_map]
    rfl

theorem reads_lastMember (ih : Reads (.member key t) text) : Reads (.members [(key, t)]) text := by
  intro fuel depth scope rest hfuel
  obtain ⟨fuel, rfl⟩ := exists_fuel (show 0 < fuel by omega)
  obtain ⟨after, hafter, ih⟩ := ih
  rw [members?_succ, ih fuel depth scope ('\x7d' :: rest) (by omega) (breaks_cons (.inr (.inr rfl)) rest),
    bind_listed?_last _ _ hafter rfl, membersWithin?_cons]
  simp only [membersWithin?, Option.map_eq_bind]
  rfl

theorem reads_members {more : List Char} (ih : Reads (.member key t) text) (ihmore : Reads (.members ms) more) :
    Reads (.members ((key, t) :: ms)) (text ++ ',' :: more) := by
  intro fuel depth scope rest hfuel
  rw [List.length_append, List.length_cons] at hfuel
  obtain ⟨fuel, rfl⟩ := exists_fuel (show 0 < fuel by omega)
  obtain ⟨after, hafter, ih⟩ := ih
  have hmore := ihmore fuel depth scope rest (by omega)
  rw [members?_succ, List.append_assoc, List.cons_append,
    ih fuel depth scope _ (by omega) (breaks_cons (.inl rfl) _), membersWithin?_cons]
  exact bind_listed?_next _ hafter (by decide) hmore

end Parts

theorem Written.reads {form : Form} {text : List Char} (h : Written form text) : Reads form text := by
  induction h with
  | null | isTrue | isFalse =>
    intro fuel depth scope rest hfuel _
    rw [List.length_cons] at hfuel
    obtain ⟨fuel, rfl⟩ := exists_fuel (show 0 < fuel by omega)
    rw [Tree.within?, value?]
    rfl
  | numeral hbody => exact reads_numeral hbody
  | literal hinner => exact reads_literal hinner
  | noItems hgap => exact reads_noItems hgap
  | array h ih => exact reads_array h ih
  | noMembers hgap => exact reads_noMembers hgap
  | object h ih => exact reads_object h ih
  | element hbefore _ hafter ih => exact reads_element hbefore hafter ih
  | lastItem _ ih => exact reads_lastItem ih
  | item _ _ ih ihmore => exact reads_item ih ihmore
  | member hbefore hkey hafter _ ih => exact reads_member hbefore hkey hafter ih
  | lastMember _ ih => exact reads_lastMember ih
  | members _ _ ih ihmore => exact reads_members ih ihmore

end Json
end JobPipeline
