import JobPipeline.Proofs.Json.Numerals

/-
A value written on one line is read back.

The reader gives up where more than `depth` brackets are open, and that is all it refuses
of a written value: what is nested less deep is read as it was, and what is nested deeper
is not read at all.  Both are followed through the characters, with any text that closes
the value behind it, so that the parts of a value can be followed inside of it.
-/
namespace JobPipeline
namespace Json

/-! ## Strings -/

/-- What the reader makes of a written character: the character, or its number if it is
written by its number. -/
inductive Spells : StringPart → Char → Prop
  | plain (c : Char) : Spells (.char c) c
  | unit {c : Char} (h : c.toNat < 32) : Spells (.unit c.toNat) c

theorem stringParts?_letter {e c : Char} (hunit : e ≠ 'u') (h : letterEscape? e = some c) (rest : List Char) :
    stringParts? ('\\' :: e :: rest) =
      (stringParts? rest).map fun (parts, rest) => (.char c :: parts, rest) := by
  rw [stringParts?]
  · rw [h]
    cases stringParts? rest <;> rfl
  · exact fun _ _ _ _ _ heq => absurd heq hunit

theorem stringParts?_number {a b c d : Char} {n : Nat} (h : Numeral.hexNumber? [a, b, c, d] = some n)
    (rest : List Char) :
    stringParts? ('\\' :: 'u' :: a :: b :: c :: d :: rest) =
      (stringParts? rest).map fun (parts, rest) => (.unit n :: parts, rest) := by
  rw [stringParts?, h]
  cases stringParts? rest <;> rfl

theorem stringParts?_plain {c : Char} (hquote : c ≠ '"') (hescape : c ≠ '\\') (hcontrol : ¬c.toNat < 32)
    (rest : List Char) :
    stringParts? (c :: rest) = (stringParts? rest).map fun (parts, rest) => (.char c :: parts, rest) := by
  simp [stringParts?, hquote, hescape, hcontrol]

/-- A written character is one piece for the reader. -/
theorem exists_spells (c : Char) :
    ∃ part, Spells part c ∧ ∀ rest, stringParts? (escapeChar c ++ rest) =
      (stringParts? rest).map fun (parts, rest) => (part :: parts, rest) := by
  have hletter : ∀ e : Char, e ≠ 'u' → letterEscape? e = some c → escapeChar c = ['\\', e] →
      ∃ part, Spells part c ∧ ∀ rest, stringParts? (escapeChar c ++ rest) =
        (stringParts? rest).map fun (parts, rest) => (part :: parts, rest) := by
    intro e hunit hvalue hwritten
    rw [hwritten]
    exact ⟨.char c, .plain c, stringParts?_letter hunit hvalue⟩
  have hnumber : ∀ n, c.toNat = n → c = Char.ofNat n := by
    rintro n rfl
    rw [Char.ofNat_toNat]
  by_cases hquote : c = '"'
  · exact hletter '"' (by decide) (by rw [hquote]; rfl) (by rw [hquote]; rfl)
  by_cases hescape : c = '\\'
  · exact hletter '\\' (by decide) (by rw [hescape]; rfl) (by rw [hescape]; rfl)
  by_cases hback : c.toNat = 8
  · exact hletter 'b' (by decide) (by rw [hnumber 8 hback]; rfl) (by rw [hnumber 8 hback]; rfl)
  by_cases htab : c = '\t'
  · exact hletter 't' (by decide) (by rw [htab]; rfl) (by rw [htab]; rfl)
  by_cases hline : c = '\n'
  · exact hletter 'n' (by decide) (by rw [hline]; rfl) (by rw [hline]; rfl)
  by_cases hfeed : c.toNat = 12
  · exact hletter 'f' (by decide) (by rw [hnumber 12 hfeed]; rfl) (by rw [hnumber 12 hfeed]; rfl)
  by_cases hreturn : c = '\r'
  · exact hletter 'r' (by decide) (by rw [hreturn]; rfl) (by rw [hreturn]; rfl)
  by_cases hcontrol : c.toNat < 32
  · have hwritten : escapeChar c = ['\\', 'u', '0', '0', hexDigit (c.toNat / 16), hexDigit c.toNat] := by
      simp only [escapeChar, if_neg hquote, if_neg hescape, if_neg hback, if_neg htab, if_neg hline,
        if_neg hfeed, if_neg hreturn, if_pos hcontrol]
    have hall : ∀ n < 32, Numeral.hexNumber? ['0', '0', hexDigit (n / 16), hexDigit n] = some n := by decide
    rw [hwritten]
    exact ⟨.unit c.toNat, .unit hcontrol, stringParts?_number (hall c.toNat hcontrol)⟩
  · have hwritten : escapeChar c = [c] := by
      simp only [escapeChar, if_neg hquote, if_neg hescape, if_neg hback, if_neg htab, if_neg hline,
        if_neg hfeed, if_neg hreturn, if_neg hcontrol]
    rw [hwritten]
    exact ⟨.char c, .plain c, stringParts?_plain hquote hescape hcontrol⟩

theorem stringParts?_written (cs rest : List Char) :
    ∃ parts, stringParts? (cs.flatMap escapeChar ++ '"' :: rest) = some (parts, rest) ∧
      List.Forall₂ Spells parts cs := by
  induction cs with
  | nil => exact ⟨[], by simp [stringParts?], .nil⟩
  | cons c cs ih =>
    obtain ⟨parts, hparts, hspells⟩ := ih
    obtain ⟨part, hpart, hread⟩ := exists_spells c
    refine ⟨part :: parts, ?_, .cons hpart hspells⟩
    rw [List.flatMap_cons, List.append_assoc, hread, hparts]
    rfl

/-- The number of a control character is no half of a pair, whatever follows. -/
theorem charsOfParts?_unit {n : Nat} (h : n < 32) (parts : List StringPart) :
    charsOfParts? (.unit n :: parts) = (charsOfParts? parts).map (Char.ofNat n :: ·) := by
  have hhigh : isHighUnit n = false := by
    rw [isHighUnit, Bool.and_eq_false_iff, decide_eq_false_iff_not]
    exact .inl (by omega)
  have hlow : isLowUnit n = false := by
    rw [isLowUnit, Bool.and_eq_false_iff, decide_eq_false_iff_not]
    exact .inl (by omega)
  cases parts with
  | nil => simp [charsOfParts?, hhigh, hlow]
  | cons part parts =>
    cases part with
    | char c => simp [charsOfParts?, hhigh, hlow]
    | unit m => rw [charsOfParts?, hhigh, hlow, if_neg Bool.false_ne_true, if_neg Bool.false_ne_true]

theorem charsOfParts?_of_spells {parts : List StringPart} {cs : List Char} (h : List.Forall₂ Spells parts cs) :
    charsOfParts? parts = some cs := by
  induction h with
  | nil => rfl
  | cons hfirst _ ih =>
    cases hfirst with
    | plain c =>
      rw [charsOfParts?, ih]
      rfl
    | unit hcontrol =>
      rw [charsOfParts?_unit hcontrol, ih, Char.ofNat_toNat]
      rfl

theorem stringTail?_written (s : String) (rest : List Char) :
    stringTail? .everything (s.toList.flatMap escapeChar ++ '"' :: rest) = some (s, rest) := by
  obtain ⟨parts, hparts, hspells⟩ := stringParts?_written s.toList rest
  rw [stringTail?.eq_def, hparts]
  simp only [charsOfParts?_of_spells hspells, Option.map_some, String.ofList_toList]

/-! ## Values and their characters -/

/-- Parts with commas between them and a closing bracket behind them. -/
def closedChars (closing : Char) : List (List Char) → List Char
  | [] => [closing]
  | [part] => part ++ [closing]
  | part :: parts => part ++ ',' :: closedChars closing parts

theorem closedChars_next (closing : Char) (part : List Char) {parts : List (List Char)} (h : parts ≠ []) :
    closedChars closing (part :: parts) = part ++ ',' :: closedChars closing parts := by
  rw [closedChars]
  exact h

theorem exists_closedChars (closing : Char) (part : List Char) (parts : List (List Char)) :
    ∃ more, closedChars closing (part :: parts) = part ++ more := by
  cases parts with
  | nil => exact ⟨_, rfl⟩
  | cons next parts => exact ⟨_, rfl⟩

/-- The characters in front of the value of a member. -/
def keyChars (key : String) : List Char := '"' :: key.toList.flatMap escapeChar ++ ['"', ':']

mutual
/-- The characters of a value on one line. -/
def compactChars : Json → List Char
  | .null => ['n', 'u', 'l', 'l']
  | .bool true => ['t', 'r', 'u', 'e']
  | .bool false => ['f', 'a', 'l', 's', 'e']
  | .number n => n.text.toList
  | .string s => '"' :: s.toList.flatMap escapeChar ++ ['"']
  | .array items => '[' :: closedChars ']' (compactItemsChars items)
  | .object members => '\x7b' :: closedChars '\x7d' (compactMembersChars members)

def compactItemsChars : List Json → List (List Char)
  | [] => []
  | item :: items => compactChars item :: compactItemsChars items

def compactMembersChars : List (String × Json) → List (List Char)
  | [] => []
  | (key, json) :: members => (keyChars key ++ compactChars json) :: compactMembersChars members
end

theorem toList_intercalate_append (closing : Char) (parts : List String) :
    (String.intercalate "," parts).toList ++ [closing] = closedChars closing (parts.map String.toList) := by
  rw [String.toList_intercalate]
  induction parts with
  | nil => rfl
  | cons part parts ih =>
    cases parts with
    | nil => simp [closedChars]
    | cons next parts =>
      rw [List.map_cons, List.map_cons, closedChars, ← List.map_cons, ← ih, List.map_cons,
        List.intercalate_cons_cons, List.append_assoc, List.append_assoc]
      · rfl
      · exact List.cons_ne_nil _ _

mutual
theorem toList_compact : (json : Json) → json.compact.toList = compactChars json
  | .null => by
    rw [compact, compactChars]
    rfl
  | .bool true => by
    rw [compact, compactChars]
    rfl
  | .bool false => by
    rw [compact, compactChars]
    rfl
  | .number n => by rw [compact, compactChars]
  | .string s => by rw [compact, compactChars, quoted, String.toList_ofList]
  | .array items => by
    rw [compact, compactChars, String.toList_append, String.toList_append, List.append_assoc,
      ← toList_compactItems items, ← toList_intercalate_append]
    rfl
  | .object members => by
    rw [compact, compactChars, String.toList_append, String.toList_append, List.append_assoc,
      ← toList_compactMembers members, ← toList_intercalate_append]
    rfl

theorem toList_compactItems : (items : List Json) →
    (compactItems items).map String.toList = compactItemsChars items
  | [] => by rw [compactItems, compactItemsChars, List.map_nil]
  | item :: items => by
    rw [compactItems, compactItemsChars, List.map_cons, toList_compact item, toList_compactItems items]

theorem toList_compactMembers : (members : List (String × Json)) →
    (compactMembers members).map String.toList = compactMembersChars members
  | [] => by rw [compactMembers, compactMembersChars, List.map_nil]
  | (key, json) :: members => by
    rw [compactMembers, compactMembersChars, List.map_cons, toList_compactMembers members,
      String.toList_append, String.toList_append, toList_compact json, quoted, String.toList_ofList,
      keyChars, List.append_assoc, List.append_assoc, List.append_assoc]
    rfl
end

mutual
/-- How many brackets are open at most inside of a value. -/
def nesting : Json → Nat
  | .null | .bool _ | .number _ | .string _ => 0
  | .array items => itemsNesting items + 1
  | .object members => membersNesting members + 1

def itemsNesting : List Json → Nat
  | [] => 0
  | item :: items => max (nesting item) (itemsNesting items)

def membersNesting : List (String × Json) → Nat
  | [] => 0
  | (_, json) :: members => max (nesting json) (membersNesting members)
end

mutual
/-- The numbers in a value. -/
def numbers : Json → List Number
  | .null | .bool _ | .string _ => []
  | .number n => [n]
  | .array items => itemsNumbers items
  | .object members => membersNumbers members

def itemsNumbers : List Json → List Number
  | [] => []
  | item :: items => numbers item ++ itemsNumbers items

def membersNumbers : List (String × Json) → List Number
  | [] => []
  | (_, json) :: members => numbers json ++ membersNumbers members
end

/-! ## Reading what was written -/

/-- A written value begins with no blank and no bracket that closes another value. -/
theorem exists_compactChars_eq_cons {json : Json} (h : ∀ n ∈ json.numbers, n.Rereads) :
    ∃ c cs, compactChars json = c :: cs ∧ isSpace c = false ∧ c ≠ ']' := by
  cases json with
  | null => exact ⟨_, _, by rw [compactChars], rfl, by decide⟩
  | bool b => cases b <;> exact ⟨_, _, by rw [compactChars], rfl, by decide⟩
  | number n =>
    rw [numbers, List.forall_mem_singleton] at h
    obtain ⟨c, cs, htext, hmark⟩ := exists_text_eq_cons h
    refine ⟨c, cs, by rw [compactChars, htext], hmark.isSpace, ?_⟩
    rintro rfl
    simp [IsMark] at hmark
  | string s => exact ⟨_, _, by rw [compactChars]; rfl, rfl, by decide⟩
  | array items => exact ⟨_, _, by rw [compactChars], rfl, by decide⟩
  | object members => exact ⟨_, _, by rw [compactChars], rfl, by decide⟩

theorem length_compactChars_pos {json : Json} (h : ∀ n ∈ json.numbers, n.Rereads) :
    0 < (compactChars json).length := by
  obtain ⟨c, cs, heq, -⟩ := exists_compactChars_eq_cons h
  rw [heq, List.length_cons]
  exact Nat.succ_pos _

theorem closed_cons {c : Char} (h : c = ',' ∨ c = ']' ∨ c = '\x7d') (rest : List Char) : Closed (c :: rest) := by
  intro d hd
  rw [List.head?_cons, Option.mem_some] at hd
  exact hd ▸ h

section Steps

variable {fuel depth : Nat} {cs rest : List Char} {json : Json}

theorem value?_array_zero : value? (fuel + 1) 0 .everything ('[' :: cs) = none := by
  rw [value?]
  rfl

theorem value?_array_nil :
    value? (fuel + 1) (depth + 1) .everything ('[' :: ']' :: rest) = some (.array [], rest) := by
  rw [value?]
  rfl

theorem value?_array {c : Char} (hspace : isSpace c = false) (hclosing : c ≠ ']') :
    value? (fuel + 1) (depth + 1) .everything ('[' :: c :: cs) =
      (items? fuel depth .everything (c :: cs)).map fun (items, rest) => (.array items, rest) := by
  have hopening : isSpace '[' = false := rfl
  simp only [value?, skipSpace_cons hopening, skipSpace_cons hspace, Scope.inside?]
  split
  · next heq => exact absurd (List.cons.inj heq).1 hclosing
  · rfl

theorem items?_item :
    items? (fuel + 1) depth .everything cs =
      (value? fuel depth .everything cs).bind fun (item, rest) =>
        match skipSpace rest with
        | ']' :: rest => some ([item], rest)
        | ',' :: rest =>
          (items? fuel depth .everything rest).map fun (items, rest) => (item :: items, rest)
        | _ => none := by
  simp only [items?, Scope.item, Scope.behind]
  cases value? fuel depth .everything cs <;> rfl

theorem items?_none (h : value? fuel depth .everything cs = none) :
    items? (fuel + 1) depth .everything cs = none := by
  rw [items?_item, h]
  rfl

theorem items?_last (h : value? fuel depth .everything cs = some (json, ']' :: rest)) :
    items? (fuel + 1) depth .everything cs = some ([json], rest) := by
  rw [items?_item, h]
  rfl

theorem items?_next (h : value? fuel depth .everything cs = some (json, ',' :: rest)) :
    items? (fuel + 1) depth .everything cs =
      (items? fuel depth .everything rest).map fun (items, rest) => (json :: items, rest) := by
  rw [items?_item, h]
  rfl

theorem value?_object_zero : value? (fuel + 1) 0 .everything ('\x7b' :: cs) = none := by
  rw [value?]
  rfl

theorem value?_object_nil :
    value? (fuel + 1) (depth + 1) .everything ('\x7b' :: '\x7d' :: rest) = some (.object [], rest) := by
  rw [value?]
  rfl

theorem value?_object :
    value? (fuel + 1) (depth + 1) .everything ('\x7b' :: '"' :: cs) =
      (members? fuel depth .everything ('"' :: cs)).map fun (members, rest) => (.object members, rest) := by
  rw [value?]
  rfl

theorem members?_key (key : String) :
    members? (fuel + 1) depth .everything (keyChars key ++ cs) =
      (value? fuel depth .everything cs).bind fun (json, rest) =>
        match skipSpace rest with
        | '\x7d' :: rest => some ([(key, json)], rest)
        | ',' :: rest =>
          (members? fuel depth .everything rest).map fun (members, rest) => ((key, json) :: members, rest)
        | _ => none := by
  have hkey := stringTail?_written key (':' :: cs)
  have hquote : isSpace '"' = false := rfl
  have hcolon : isSpace ':' = false := rfl
  have hcs : keyChars key ++ cs = '"' :: (key.toList.flatMap escapeChar ++ '"' :: ':' :: cs) := by
    simp [keyChars]
  rw [hcs]
  simp only [members?, skipSpace_cons hquote, hkey, skipSpace_cons hcolon, Scope.member]
  cases value? fuel depth .everything cs <;> rfl

theorem members?_none {key : String} (h : value? fuel depth .everything cs = none) :
    members? (fuel + 1) depth .everything (keyChars key ++ cs) = none := by
  rw [members?_key, h]
  rfl

theorem members?_last {key : String} (h : value? fuel depth .everything cs = some (json, '\x7d' :: rest)) :
    members? (fuel + 1) depth .everything (keyChars key ++ cs) = some ([(key, json)], rest) := by
  rw [members?_key, h]
  rfl

theorem members?_next {key : String} (h : value? fuel depth .everything cs = some (json, ',' :: rest)) :
    members? (fuel + 1) depth .everything (keyChars key ++ cs) =
      (members? fuel depth .everything rest).map fun (members, rest) => ((key, json) :: members, rest) := by
  rw [members?_key, h]
  rfl

/-- An array is read if its items are, with one bracket less to open. -/
theorem value?_compactChars_array {items : List Json} (h : ∀ n ∈ itemsNumbers items, n.Rereads)
    (hitems : ∀ depth, items ≠ [] →
      items? fuel depth .everything (closedChars ']' (compactItemsChars items) ++ rest) =
        if itemsNesting items ≤ depth then some (items, rest) else none) :
    value? (fuel + 1) depth .everything (compactChars (.array items) ++ rest) =
      if (Json.array items).nesting ≤ depth then some (.array items, rest) else none := by
  rw [compactChars, nesting, List.cons_append]
  cases depth with
  | zero => rw [value?_array_zero, if_neg (Nat.not_succ_le_zero _)]
  | succ depth =>
    cases items with
    | nil =>
      rw [compactItemsChars, closedChars, itemsNesting, if_pos (Nat.le_add_left 1 depth)]
      exact value?_array_nil
    | cons item items =>
      have hitem : ∀ n ∈ item.numbers, n.Rereads := fun n hn => h n (by
        rw [itemsNumbers]
        exact List.mem_append_left _ hn)
      have hitems := hitems depth (List.cons_ne_nil _ _)
      obtain ⟨c, cs, hchars, hspace, hclosing⟩ := exists_compactChars_eq_cons hitem
      obtain ⟨more, hmore⟩ := exists_closedChars ']' (compactChars item) (compactItemsChars items)
      rw [compactItemsChars, hmore, hchars, List.cons_append, List.cons_append] at hitems ⊢
      rw [value?_array hspace hclosing, hitems]
      simp only [Nat.add_le_add_iff_right]
      split <;> rfl

theorem value?_compactChars_object {members : List (String × Json)}
    (hmembers : ∀ depth, members ≠ [] →
      members? fuel depth .everything (closedChars '\x7d' (compactMembersChars members) ++ rest) =
        if membersNesting members ≤ depth then some (members, rest) else none) :
    value? (fuel + 1) depth .everything (compactChars (.object members) ++ rest) =
      if (Json.object members).nesting ≤ depth then some (.object members, rest) else none := by
  rw [compactChars, nesting, List.cons_append]
  cases depth with
  | zero => rw [value?_object_zero, if_neg (Nat.not_succ_le_zero _)]
  | succ depth =>
    cases members with
    | nil =>
      rw [compactMembersChars, closedChars, membersNesting, if_pos (Nat.le_add_left 1 depth)]
      exact value?_object_nil
    | cons member members =>
      obtain ⟨key, json⟩ := member
      have hmembers := hmembers depth (List.cons_ne_nil _ _)
      obtain ⟨more, hmore⟩ := exists_closedChars '\x7d' (keyChars key ++ compactChars json)
        (compactMembersChars members)
      rw [compactMembersChars, hmore, keyChars] at hmembers ⊢
      simp only [List.cons_append] at hmembers ⊢
      rw [value?_object, hmembers]
      simp only [Nat.add_le_add_iff_right]
      split <;> rfl

end Steps

mutual
/-- A written value is read if it is nested no deeper than may be, and not at all otherwise. -/
theorem value?_compactChars : (json : Json) → (∀ n ∈ json.numbers, n.Rereads) →
    ∀ (fuel depth : Nat) {rest : List Char}, 2 * (compactChars json).length ≤ fuel → Closed rest →
    value? fuel depth .everything (compactChars json ++ rest) =
      if json.nesting ≤ depth then some (json, rest) else none := by
  intro json h fuel depth rest hfuel hrest
  have hlength := length_compactChars_pos h
  obtain ⟨fuel, rfl⟩ : ∃ f, fuel = f + 1 := ⟨fuel - 1, by omega⟩
  match json with
  | .null =>
    rw [compactChars, nesting, if_pos (Nat.zero_le depth), value?]
    rfl
  | .bool true =>
    rw [compactChars, nesting, if_pos (Nat.zero_le depth), value?]
    rfl
  | .bool false =>
    rw [compactChars, nesting, if_pos (Nat.zero_le depth), value?]
    rfl
  | .number n =>
    rw [numbers, List.forall_mem_singleton] at h
    rw [compactChars, nesting, if_pos (Nat.zero_le depth), value?_text h fuel depth hrest]
  | .string s =>
    rw [compactChars, nesting, if_pos (Nat.zero_le depth), value?, List.append_assoc]
    show (stringTail? .everything (s.toList.flatMap escapeChar ++ ('"' :: rest))).map _ = _
    rw [stringTail?_written]
    rfl
  | .array items =>
    rw [numbers] at h
    rw [compactChars, List.length_cons] at hfuel
    exact value?_compactChars_array h fun depth hne =>
      items?_compactChars items hne h fuel depth (by omega) hrest
  | .object members =>
    rw [numbers] at h
    rw [compactChars, List.length_cons] at hfuel
    exact value?_compactChars_object fun depth hne =>
      members?_compactChars members hne h fuel depth (by omega) hrest

theorem items?_compactChars : (items : List Json) → items ≠ [] → (∀ n ∈ itemsNumbers items, n.Rereads) →
    ∀ (fuel depth : Nat) {rest : List Char},
    2 * (closedChars ']' (compactItemsChars items)).length ≤ fuel → Closed rest →
    items? fuel depth .everything (closedChars ']' (compactItemsChars items) ++ rest) =
      if itemsNesting items ≤ depth then some (items, rest) else none
  | [], hne => absurd rfl hne
  | [item], _ => by
    intro h fuel depth rest hfuel hrest
    rw [itemsNumbers, itemsNumbers, List.append_nil] at h
    rw [compactItemsChars, compactItemsChars, closedChars] at hfuel ⊢
    rw [List.length_append, List.length_singleton] at hfuel
    obtain ⟨fuel, rfl⟩ : ∃ f, fuel = f + 1 := ⟨fuel - 1, by omega⟩
    have hitem := value?_compactChars item h fuel depth (by omega)
      (closed_cons (.inr (.inl rfl)) rest)
    rw [List.append_assoc, List.singleton_append, itemsNesting, itemsNesting, Nat.max_zero]
    split at hitem
    · next hdepth => rw [items?_last hitem, if_pos hdepth]
    · next hdepth => rw [items?_none hitem, if_neg hdepth]
  | item :: next :: items, _ => by
    intro h fuel depth rest hfuel hrest
    rw [itemsNumbers, List.forall_mem_append] at h
    have hne : compactItemsChars (next :: items) ≠ [] := by
      rw [compactItemsChars]
      exact List.cons_ne_nil _ _
    rw [compactItemsChars, closedChars_next _ _ hne] at hfuel ⊢
    rw [List.length_append, List.length_cons] at hfuel
    have hlength := length_compactChars_pos h.1
    obtain ⟨fuel, rfl⟩ : ∃ f, fuel = f + 1 := ⟨fuel - 1, by omega⟩
    have hitem := value?_compactChars item h.1 fuel depth (by omega)
      (closed_cons (.inl rfl) (closedChars ']' (compactItemsChars (next :: items)) ++ rest))
    have hitems := items?_compactChars (next :: items) (List.cons_ne_nil _ _) h.2 fuel depth (by omega) hrest
    rw [List.append_assoc, List.cons_append, itemsNesting]
    split at hitem
    · next hdepth =>
      rw [items?_next hitem, hitems]
      simp only [Nat.max_le, hdepth, true_and]
      split <;> rfl
    · next hdepth =>
      rw [items?_none hitem, if_neg fun hmax => hdepth (Nat.max_le.1 hmax).1]

theorem members?_compactChars : (members : List (String × Json)) → members ≠ [] →
    (∀ n ∈ membersNumbers members, n.Rereads) → ∀ (fuel depth : Nat) {rest : List Char},
    2 * (closedChars '\x7d' (compactMembersChars members)).length ≤ fuel → Closed rest →
    members? fuel depth .everything (closedChars '\x7d' (compactMembersChars members) ++ rest) =
      if membersNesting members ≤ depth then some (members, rest) else none
  | [], hne => absurd rfl hne
  | [(key, json)], _ => by
    intro h fuel depth rest hfuel hrest
    rw [membersNumbers, membersNumbers, List.append_nil] at h
    rw [compactMembersChars, compactMembersChars, closedChars] at hfuel ⊢
    rw [List.length_append, List.length_append, List.length_singleton] at hfuel
    obtain ⟨fuel, rfl⟩ : ∃ f, fuel = f + 1 := ⟨fuel - 1, by omega⟩
    have hvalue := value?_compactChars json h fuel depth (by omega)
      (closed_cons (.inr (.inr rfl)) rest)
    rw [List.append_assoc, List.append_assoc, List.singleton_append, membersNesting, membersNesting,
      Nat.max_zero]
    split at hvalue
    · next hdepth => rw [members?_last hvalue, if_pos hdepth]
    · next hdepth => rw [members?_none hvalue, if_neg hdepth]
  | (key, json) :: next :: members, _ => by
    intro h fuel depth rest hfuel hrest
    rw [membersNumbers, List.forall_mem_append] at h
    have hne : compactMembersChars (next :: members) ≠ [] := by
      rw [compactMembersChars]
      exact List.cons_ne_nil _ _
    rw [compactMembersChars, closedChars_next _ _ hne] at hfuel ⊢
    rw [List.length_append, List.length_append, List.length_cons] at hfuel
    have hlength := length_compactChars_pos h.1
    obtain ⟨fuel, rfl⟩ : ∃ f, fuel = f + 1 := ⟨fuel - 1, by omega⟩
    have hvalue := value?_compactChars json h.1 fuel depth (by omega)
      (closed_cons (.inl rfl) (closedChars '\x7d' (compactMembersChars (next :: members)) ++ rest))
    have hmembers := members?_compactChars (next :: members) (List.cons_ne_nil _ _) h.2 fuel depth
      (by omega) hrest
    rw [List.append_assoc, List.append_assoc, List.cons_append, membersNesting]
    split at hvalue
    · next hdepth =>
      rw [members?_next hvalue, hmembers]
      simp only [Nat.max_le, hdepth, true_and]
      split <;> rfl
    · next hdepth =>
      rw [members?_none hvalue, if_neg fun hmax => hdepth (Nat.max_le.1 hmax).1]
end

theorem read?_compact {json : Json} (h : ∀ n ∈ json.numbers, n.Rereads) :
    read? json.compact = if json.nesting ≤ mostDepth then some json else none := by
  have hclosed : Closed [] := fun c hc => absurd hc (by simp)
  have hvalue := value?_compactChars json h (2 * (compactChars json).length + 2) mostDepth
    (Nat.le_add_right _ 2) hclosed
  rw [List.append_nil] at hvalue
  simp only [read?, readWithin?, toList_compact, hvalue]
  split
  · next heq =>
    split at heq
    · next hdepth =>
      obtain ⟨rfl, rfl⟩ := Prod.mk.inj (Option.some.inj heq)
      rw [if_pos hdepth]
      rfl
    · cases heq
  · next heq =>
    split at heq
    · cases heq
    · next hdepth => rw [if_neg hdepth]

theorem valueOf?_compact {json : Json} (h : ∀ n ∈ json.numbers, n.Rereads) :
    valueOf? json.compact = if json.nesting ≤ mostDepth then some json.canonical else none := by
  rw [valueOf?, read?_compact h]
  split <;> rfl

end Json
end JobPipeline
