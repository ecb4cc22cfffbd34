import JobPipeline.Proofs.Json.Grammar

/-
The reader takes in the texts of the grammar and no others.

What the reader finds is followed by fuel: with more of it a value, the items of an array
and the members of an object are texts of the grammar if what they are made of is, and what
is taken in of each is what its tree holds.  Together with the texts of the grammar being
taken in this is the meaning of a text: a tree, seen through the part that is taken in.
-/
namespace JobPipeline
namespace Json

/-! ## What is taken in is of the grammar -/

def ValuesWritten (fuel : Nat) : Prop :=
  ∀ {depth : Nat} {scope : Scope} {cs rest : List Char} {v : Json},
    value? fuel depth scope cs = some (v, rest) →
    ∃ t gap text, Spaces gap ∧ Written (.value t) text ∧ cs = gap ++ (text ++ rest) ∧
      t.within? depth scope = some v

def ItemsWritten (fuel : Nat) : Prop :=
  ∀ {depth : Nat} {scope : Scope} {cs rest : List Char} {vs : List Json},
    items? fuel depth scope cs = some (vs, rest) →
    ∃ ts text, Written (.items ts) text ∧ cs = text ++ ']' :: rest ∧ itemsWithin? ts depth scope = some vs

def MembersWritten (fuel : Nat) : Prop :=
  ∀ {depth : Nat} {scope : Scope} {cs rest : List Char} {ms : List (String × Json)},
    members? fuel depth scope cs = some (ms, rest) →
    ∃ ts text, Written (.members ts) text ∧ cs = text ++ '\x7d' :: rest ∧
      membersWithin? ts depth scope = some ms

section Found

variable {fuel depth : Nat} {scope : Scope} {cs rest : List Char}

/-- A value with the spaces behind it. -/
theorem ValuesWritten.exists_element (hv : ValuesWritten fuel) {v : Json}
    (h : value? fuel depth scope cs = some (v, rest)) :
    ∃ t text, Written (.element t) text ∧ cs = text ++ skipSpace rest ∧ t.within? depth scope = some v := by
  obtain ⟨t, gap, text, hgap, hvalue, hcs, hwithin⟩ := hv h
  obtain ⟨after, hafter, hrest⟩ := exists_spaces rest
  refine ⟨t, _, .element hgap hvalue hafter, ?_, hwithin⟩
  rw [List.append_assoc, List.append_assoc, ← hrest, hcs]

theorem ValuesWritten.exists_member (hv : ValuesWritten fuel) {m : String × Json}
    (h : member? fuel depth scope cs = some (m, rest)) :
    ∃ key t text, Written (.member key t) text ∧ cs = text ++ skipSpace rest ∧
      memberWithin? key t depth scope = some m := by
  obtain ⟨gap, hgap, hcs⟩ := exists_spaces cs
  rw [member?] at h
  split at h
  · next behind hskip =>
    obtain ⟨⟨name, left⟩, htail, hmember⟩ := Option.bind_eq_some_iff.1 h
    obtain ⟨key, hkey, hbehind, hname⟩ := exists_literal_of_stringTail? htail
    obtain ⟨after, hafter, hleft⟩ := exists_spaces left
    dsimp only at hmember
    split at hmember
    · next colon hcolon =>
      obtain ⟨⟨v, left⟩, hvalue, heq⟩ := Option.map_eq_some_iff.1 hmember
      cases heq
      obtain ⟨t, text, htext, rfl, hwithin⟩ := hv.exists_element hvalue
      refine ⟨key, t, _, .member hgap hkey hafter htext, ?_, ?_⟩
      · rw [hcs, hskip, hbehind, hleft, hcolon]
        simp only [quotedChars, List.append_assoc, List.cons_append, List.nil_append]
      · rw [memberWithin?, hname, Option.bind_some, hwithin]
        rfl
    · cases hmember
  · cases h

theorem itemsWritten_succ (hv : ValuesWritten fuel) (hi : ItemsWritten fuel) : ItemsWritten (fuel + 1) := by
  intro depth scope cs rest vs h
  rw [items?_succ] at h
  obtain ⟨⟨v, left⟩, hvalue, h⟩ := Option.bind_eq_some_iff.1 h
  obtain ⟨t, text, htext, hcs, hwithin⟩ := hv.exists_element hvalue
  rcases listed?_eq_some h with ⟨hskip, rfl⟩ | ⟨behind, vs, hskip, hitems, rfl⟩
  · refine ⟨[t], text, .lastItem htext, by rw [hcs, hskip], ?_⟩
    simp only [itemsWithin?, hwithin, Option.bind_some, Option.map_some]
  · obtain ⟨ts, more, hmore, rfl, hitemsWithin⟩ := hi hitems
    refine ⟨t :: ts, _, .item htext hmore, by rw [hcs, hskip, List.append_assoc]; rfl, ?_⟩
    simp only [itemsWithin?, hwithin, hitemsWithin, Option.bind_some, Option.map_some]

theorem membersWritten_succ (hv : ValuesWritten fuel) (hm : MembersWritten fuel) :
    MembersWritten (fuel + 1) := by
  intro depth scope cs rest ms h
  rw [members?_succ] at h
  obtain ⟨⟨m, left⟩, hmember, h⟩ := Option.bind_eq_some_iff.1 h
  obtain ⟨key, t, text, htext, hcs, hwithin⟩ := hv.exists_member hmember
  rcases listed?_eq_some h with ⟨hskip, rfl⟩ | ⟨behind, ms, hskip, hmembers, rfl⟩
  · refine ⟨[(key, t)], text, .lastMember htext, by rw [hcs, hskip], ?_⟩
    rw [membersWithin?_cons, hwithin, membersWithin?]
    rfl
  · obtain ⟨ts, more, hmore, rfl, hmembersWithin⟩ := hm hmembers
    refine ⟨(key, t) :: ts, _, .members htext hmore, by rw [hcs, hskip, List.append_assoc]; rfl, ?_⟩
    rw [membersWithin?_cons, hwithin, hmembersWithin]
    rfl

/-- What follows the bracket that opens an array. -/
theorem ItemsWritten.exists_array (hi : ItemsWritten fuel) {v : Json}
    (h : value? (fuel + 1) depth scope ('[' :: cs) = some (v, rest)) :
    ∃ t text, Written (.value t) ('[' :: text) ∧ cs = text ++ rest ∧ t.within? depth scope = some v := by
  obtain ⟨gap, hgap, hcs⟩ := exists_spaces cs
  rw [value?_bracket] at h
  obtain ⟨within, hinside, h⟩ := Option.bind_eq_some_iff.1 h
  obtain ⟨⟨vs, left⟩, h, heq⟩ := Option.map_eq_some_iff.1 h
  cases heq
  rcases enclosed?_eq_some h with ⟨hskip, rfl⟩ | hitems
  · refine ⟨.array [], _, .noItems hgap, by rw [hcs, hskip, List.append_assoc]; rfl, ?_⟩
    simp only [Tree.within?, hinside, itemsWithin?, Option.bind_some, Option.map_some]
  · rw [items?_skipSpace] at hitems
    obtain ⟨ts, text, htext, rfl, hwithin⟩ := hi hitems
    refine ⟨.array ts, _, .array htext, by rw [List.append_assoc]; rfl, ?_⟩
    simp only [Tree.within?, hinside, hwithin, Option.bind_some, Option.map_some]

theorem MembersWritten.exists_object (hm : MembersWritten fuel) {v : Json}
    (h : value? (fuel + 1) depth scope ('\x7b' :: cs) = some (v, rest)) :
    ∃ t text, Written (.value t) ('\x7b' :: text) ∧ cs = text ++ rest ∧ t.within? depth scope = some v := by
  obtain ⟨gap, hgap, hcs⟩ := exists_spaces cs
  rw [value?_brace] at h
  obtain ⟨within, hinside, h⟩ := Option.bind_eq_some_iff.1 h
  obtain ⟨⟨ms, left⟩, h, heq⟩ := Option.map_eq_some_iff.1 h
  cases heq
  rcases enclosed?_eq_some h with ⟨hskip, rfl⟩ | hmembers
  · refine ⟨.object [], _, .noMembers hgap, by rw [hcs, hskip, List.append_assoc]; rfl, ?_⟩
    simp only [Tree.within?, hinside, membersWithin?, Option.bind_some, Option.map_some]
  · rw [members?_skipSpace] at hmembers
    obtain ⟨ts, text, htext, rfl, hwithin⟩ := hm hmembers
    refine ⟨.object ts, _, .object htext, by rw [List.append_assoc]; rfl, ?_⟩
    simp only [Tree.within?, hinside, hwithin, Option.bind_some, Option.map_some]

theorem valuesWritten_succ (hi : ItemsWritten fuel) (hm : MembersWritten fuel) : ValuesWritten (fuel + 1) := by
  intro depth scope cs rest v h
  obtain ⟨gap, hgap, hcs⟩ := exists_spaces cs
  have hskip : value? (fuel + 1) depth scope (skipSpace cs) = some (v, rest) := by
    rw [← value?_spaces _ _ _ hgap, ← hcs, h]
  rw [value?] at h
  split at h
  · next heq =>
    cases h
    exact ⟨.null, gap, _, hgap, .null, by rw [hcs, heq]; rfl, rfl⟩
  · next heq =>
    cases h
    exact ⟨.bool true, gap, _, hgap, .isTrue, by rw [hcs, heq]; rfl, rfl⟩
  · next heq =>
    cases h
    exact ⟨.bool false, gap, _, hgap, .isFalse, by rw [hcs, heq]; rfl, rfl⟩
  · next heq =>
    obtain ⟨⟨s, left⟩, htail, hpair⟩ := Option.map_eq_some_iff.1 h
    cases hpair
    obtain ⟨inner, hinner, hbehind, htext⟩ := exists_literal_of_stringTail? htail
    refine ⟨.literal inner, gap, _, hgap, .literal hinner, ?_, by rw [Tree.within?, htext]; rfl⟩
    rw [hcs, heq, hbehind, quotedChars, List.cons_append, List.append_assoc]
    rfl
  · next heq =>
    obtain ⟨s, body, hbody, hnegative, hbehind, hvalue⟩ := exists_numeral_of_numberTail? h
    rw [← hnegative] at hvalue
    refine ⟨.numeral s.negative body, gap, _, hgap, .numeral hbody, ?_, hvalue⟩
    rw [hcs, heq, hnegative, hbehind]
    rfl
  · next heq =>
    rw [heq] at hskip
    obtain ⟨t, text, htext, rfl, hwithin⟩ := hi.exists_array hskip
    exact ⟨t, gap, _, hgap, htext, by rw [hcs, heq]; rfl, hwithin⟩
  · next heq =>
    rw [heq] at hskip
    obtain ⟨t, text, htext, rfl, hwithin⟩ := hm.exists_object hskip
    exact ⟨t, gap, _, hgap, htext, by rw [hcs, heq]; rfl, hwithin⟩
  · obtain ⟨s, body, hbody, hnegative, hbehind, hvalue⟩ := exists_numeral_of_numberTail? h
    rw [← hnegative] at hvalue
    refine ⟨.numeral s.negative body, gap, _, hgap, .numeral hbody, ?_, hvalue⟩
    rw [hnegative, signChars, List.nil_append, ← hbehind, ← hcs]

theorem allWritten (fuel : Nat) : ValuesWritten fuel ∧ ItemsWritten fuel ∧ MembersWritten fuel := by
  induction fuel with
  | zero =>
    refine ⟨?_, ?_, ?_⟩
    · intro depth scope cs rest v h
      rw [value?] at h
      cases h
    · intro depth scope cs rest vs h
      rw [items?] at h
      cases h
    · intro depth scope cs rest ms h
      rw [members?] at h
      cases h
  | succ fuel ih =>
    obtain ⟨hv, hi, hm⟩ := ih
    exact ⟨valuesWritten_succ hi hm, itemsWritten_succ hv hi, membersWritten_succ hv hm⟩

end Found

/-- The reader takes in the texts of the grammar and no others, and of each what its tree holds. -/
theorem readWithin?_eq_some_iff {scope : Scope} {s : String} {v : Json} :
    readWithin? scope s = some v ↔
      ∃ t, Written (.element t) s.toList ∧ t.within? mostDepth scope = some v := by
  constructor
  · intro h
    rw [readWithin?] at h
    split at h
    · next json rest hvalue =>
      split at h
      · next hskip =>
        cases h
        obtain ⟨t, text, htext, hcs, hwithin⟩ := ValuesWritten.exists_element (allWritten _).1 hvalue
        rw [hskip, List.append_nil] at hcs
        exact ⟨t, hcs ▸ htext, hwithin⟩
      · cases h
    · cases h
  · rintro ⟨t, htext, hwithin⟩
    obtain ⟨after, hafter, hread⟩ := htext.reads
    have hvalue := hread (2 * s.toList.length + 2) mostDepth scope [] (Nat.le_add_right _ 2) breaks_nil
    rw [List.append_nil, hwithin] at hvalue
    have hskip : skipSpace (after ++ []) = [] := skipSpace_append hafter []
    simp only [readWithin?, hvalue, Option.map_some, hskip, if_true]

/-! ## What is passed over -/

/-- Nothing is refused of a part that is passed over. -/
def Passed : Form → Prop
  | .value t | .element t => ∀ depth, (t.within? depth .nothing).isSome = true
  | .items ts => ∀ depth, (itemsWithin? ts depth .nothing).isSome = true
  | .member key t => ∀ depth, (memberWithin? key t depth .nothing).isSome = true
  | .members ms => ∀ depth, (membersWithin? ms depth .nothing).isSome = true

theorem literalText?_nothing {inner : List Char} (h : IsLiteral inner) : literalText? .nothing inner = some "" := by
  obtain ⟨parts, hparts⟩ := h.exists_parts
  rw [literalText?, stringTail?_eq, hparts []]
  rfl

theorem Written.passed {form : Form} {text : List Char} (h : Written form text) : Passed form := by
  induction h with
  | null | isTrue | isFalse => exact fun _ => rfl
  | numeral hbody =>
    intro depth
    rw [Tree.within?, numeralValue?_numeral hbody]
    rfl
  | literal hinner =>
    intro depth
    rw [Tree.within?, literalText?_nothing hinner]
    rfl
  | noItems | noMembers => exact fun _ => rfl
  | array _ ih | object _ ih =>
    intro depth
    rw [Tree.within?, Scope.inside?, Option.bind_some, Option.isSome_map]
    exact ih depth
  | element _ _ _ ih => exact ih
  | lastItem _ ih =>
    intro depth
    obtain ⟨v, hv⟩ := Option.isSome_iff_exists.1 (ih depth)
    rw [itemsWithin?, Scope.item, hv]
    rfl
  | item _ _ ih ihmore =>
    intro depth
    obtain ⟨v, hv⟩ := Option.isSome_iff_exists.1 (ih depth)
    rw [itemsWithin?, Scope.item, hv, Option.bind_some, Option.isSome_map]
    exact ihmore depth
  | member _ hkey _ _ ih =>
    intro depth
    rw [memberWithin?, literalText?_nothing hkey, Option.bind_some, Option.isSome_map]
    exact ih depth
  | lastMember _ ih =>
    intro depth
    obtain ⟨m, hm⟩ := Option.isSome_iff_exists.1 (ih depth)
    rw [membersWithin?_cons, hm]
    rfl
  | members _ _ ih ihmore =>
    intro depth
    obtain ⟨m, hm⟩ := Option.isSome_iff_exists.1 (ih depth)
    rw [membersWithin?_cons, hm, Option.bind_some, Option.isSome_map]
    exact ihmore depth

/-- A reader that takes in nothing asks of a text that it is JSON, and no more. -/
theorem isSome_readWithin?_nothing {s : String} :
    (readWithin? .nothing s).isSome = true ↔ ∃ t, Written (.element t) s.toList := by
  rw [Option.isSome_iff_exists]
  constructor
  · rintro ⟨v, hv⟩
    obtain ⟨t, htext, -⟩ := readWithin?_eq_some_iff.1 hv
    exact ⟨t, htext⟩
  · rintro ⟨t, htext⟩
    obtain ⟨v, hv⟩ := Option.isSome_iff_exists.1 (htext.passed mostDepth)
    exact ⟨v, readWithin?_eq_some_iff.2 ⟨t, htext, hv⟩⟩

end Json
end JobPipeline
