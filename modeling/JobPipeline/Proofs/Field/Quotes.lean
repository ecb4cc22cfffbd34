import JobPipeline.Proofs.Field.Cuts

/-
Quotes across the parts of a list.

A quote opens a literal only if some later quote closes it, however far away.  So
what a part is read as depends on the parts behind it, and in one way only: a
quote that stays open in a part must not be closed behind it.  The next comma is
where this becomes a matter of each part alone, since behind any character that
is no quote and no backslash the search for the closing quote is in the same
state, whatever stood before.
-/
namespace JobPipeline
namespace Field

/-- A character that neither ends a literal nor escapes the next one. -/
def Plain (c : Char) : Prop := c ≠ '"' ∧ c ≠ '\\'

instance (c : Char) : Decidable (Plain c) := inferInstanceAs (Decidable (_ ∧ _))

theorem literal?_cons_plain {c : Char} (h : Plain c) (cs : List Char) :
    literal? (c :: cs) = (literal? cs).map fun (inner, rest) => (c :: inner, rest) := by
  rw [literal?, if_neg h.1]
  exact fun _ _ heq => absurd heq h.2

theorem literal?_escape (c : Char) (cs : List Char) :
    literal? ('\\' :: c :: cs) = (literal? cs).map fun (inner, rest) => ('\\' :: c :: inner, rest) := by
  rw [literal?]

theorem literal?_quote (cs : List Char) : literal? ('"' :: cs) = some ([], cs) := by
  rw [literal?, if_pos rfl]
  exact fun _ _ heq => by cases heq

/-- A plain character parts the search for a closing quote in two. -/
theorem literal?_append_eq_none {c : Char} (hc : Plain c) (cs ds : List Char) :
    literal? (cs ++ c :: ds) = none ↔ literal? cs = none ∧ literal? ds = none := by
  fun_induction literal? cs with
  | case1 => rw [List.nil_append, literal?_cons_plain hc]; simp
  | case2 d cs ih =>
    rw [List.cons_append, List.cons_append, literal?_escape, Option.map_eq_none_iff,
      Option.map_eq_none_iff]
    exact ih
  | case3 cs => rw [List.cons_append, literal?_quote]; simp
  | case4 d cs hescape hd ih =>
    rw [Option.map_eq_none_iff]
    by_cases hslash : d = '\\'
    · -- A backslash that ends the first text escapes the character between the two.
      have hnil : cs = [] := by
        cases cs with
        | nil => rfl
        | cons e cs => exact absurd rfl (hescape e cs hslash)
      subst hslash hnil
      rw [List.cons_append, List.nil_append, literal?_escape, Option.map_eq_none_iff]
      simp [literal?]
    · rw [List.cons_append, literal?_cons_plain ⟨hd, hslash⟩, Option.map_eq_none_iff]
      exact ih

/-- A literal ends where it ends, whatever follows. -/
theorem literal?_append {cs inner rest : List Char} (h : literal? cs = some (inner, rest))
    (ds : List Char) : literal? (cs ++ ds) = some (inner, rest ++ ds) := by
  fun_induction literal? cs generalizing inner with
  | case1 => cases h
  | case2 d cs ih =>
    obtain ⟨⟨i, r⟩, hi, hpair⟩ := Option.map_eq_some_iff.1 h
    obtain ⟨rfl, rfl⟩ := Prod.mk.inj hpair
    rw [List.cons_append, List.cons_append, literal?_escape, ih hi]
    rfl
  | case3 cs =>
    obtain ⟨rfl, rfl⟩ := Prod.mk.inj (Option.some.inj h)
    rw [List.cons_append, literal?_quote]
  | case4 d cs hescape hd ih =>
    obtain ⟨⟨i, r⟩, hi, hpair⟩ := Option.map_eq_some_iff.1 h
    obtain ⟨rfl, rfl⟩ := Prod.mk.inj hpair
    by_cases hslash : d = '\\'
    · have hnil : cs = [] := by
        cases cs with
        | nil => rfl
        | cons e cs => exact absurd rfl (hescape e cs hslash)
      rw [hnil] at hi
      cases hi
    · rw [List.cons_append, literal?_cons_plain ⟨hd, hslash⟩, ih hi]
      rfl

/-- A literal is found again with another text behind it. -/
theorem literal?_of_append {inner ds : List Char}
    (h : literal? (inner ++ '"' :: ds) = some (inner, ds)) (es : List Char) :
    literal? (inner ++ '"' :: es) = some (inner, es) := by
  generalize hcs : inner ++ '"' :: ds = cs at h
  fun_induction literal? cs generalizing inner with
  | case1 => cases h
  | case2 d cs ih =>
    obtain ⟨⟨i, r⟩, hi, hpair⟩ := Option.map_eq_some_iff.1 h
    obtain ⟨rfl, rfl⟩ := Prod.mk.inj hpair
    have htail : i ++ '"' :: r = cs := by simpa using hcs
    rw [List.cons_append, List.cons_append, literal?_escape, ih htail hi]
    rfl
  | case3 cs =>
    obtain ⟨rfl, rfl⟩ := Prod.mk.inj (Option.some.inj h)
    exact literal?_quote es
  | case4 d cs hescape hd ih =>
    obtain ⟨⟨i, r⟩, hi, hpair⟩ := Option.map_eq_some_iff.1 h
    obtain ⟨rfl, rfl⟩ := Prod.mk.inj hpair
    have htail : i ++ '"' :: r = cs := by simpa using hcs
    have hslash : d ≠ '\\' := by
      intro hslash
      cases cs with
      | nil => cases hi
      | cons e cs => exact hescape e cs hslash rfl
    rw [List.cons_append, literal?_cons_plain ⟨hd, hslash⟩, ih htail hi]
    rfl

/-! ## Atoms -/

theorem atoms_cons {c : Char} (h : c ≠ '"') (cs : List Char) : atoms (c :: cs) = .char c :: atoms cs := by
  rw [atoms, if_neg h]

theorem atoms_quote_none {cs : List Char} (h : literal? cs = none) :
    atoms ('"' :: cs) = .char '"' :: atoms cs := by
  rw [atoms, if_pos rfl]
  split
  · next heq =>
    rw [h] at heq
    cases heq
  · rfl

theorem atoms_quote_some {cs inner rest : List Char} (h : literal? cs = some (inner, rest)) :
    atoms ('"' :: cs) = .literal inner :: atoms rest := by
  rw [atoms, if_pos rfl]
  split
  · next heq =>
    rw [h] at heq
    cases heq
    rfl
  · next heq =>
    rw [h] at heq
    cases heq

theorem textOf_atoms (cs : List Char) : textOf (atoms cs) = cs := by
  fun_induction atoms cs with
  | case1 => rfl
  | case2 cs inner rest h ih =>
    rw [textOf_cons, ih, text_of_literal? h, Atom.text]
    simp
  | case3 cs h ih =>
    rw [textOf_cons, ih]
    rfl
  | case4 c cs hc ih =>
    rw [textOf_cons, ih]
    rfl

/-- Texts around a plain character are read apart, unless a quote that stays open
in the first is closed in the second. -/
theorem atoms_append {c : Char} (hc : Plain c) {cs ds : List Char}
    (h : .char '"' ∈ atoms cs → literal? ds = none) :
    atoms (cs ++ c :: ds) = atoms cs ++ .char c :: atoms ds := by
  fun_induction atoms cs with
  | case1 => exact atoms_cons hc.1 ds
  | case2 cs inner rest hliteral ih =>
    rw [List.cons_append, atoms_quote_some (literal?_append hliteral (c :: ds)),
      ih fun hmem => h (List.mem_cons_of_mem _ hmem)]
    rfl
  | case3 cs hliteral ih =>
    have hnone : literal? (cs ++ c :: ds) = none :=
      (literal?_append_eq_none hc cs ds).2 ⟨hliteral, h List.mem_cons_self⟩
    rw [List.cons_append, atoms_quote_none hnone, ih fun hmem => h (List.mem_cons_of_mem _ hmem)]
    rfl
  | case4 d cs hd ih =>
    rw [List.cons_append, atoms_cons hd, ih fun hmem => h (List.mem_cons_of_mem _ hmem)]
    rfl

/-- Atoms that a text is read as. -/
def Scanned (as : List Atom) : Prop := atoms (textOf as) = as

theorem scanned_atoms (cs : List Char) : Scanned (atoms cs) := by rw [Scanned, textOf_atoms]

theorem scanned_cons_char {d : Char} (hd : d ≠ '"') (as : List Atom) :
    Scanned (.char d :: as) ↔ Scanned as := by
  have htext : textOf (.char d :: as) = d :: textOf as := rfl
  rw [Scanned, htext, atoms_cons hd, List.cons.injEq]
  exact ⟨And.right, fun h => ⟨rfl, h⟩⟩

/-- A quote is read as a character when nothing behind it closes it. -/
theorem scanned_cons_quote (as : List Atom) :
    Scanned (.char '"' :: as) ↔ literal? (textOf as) = none ∧ Scanned as := by
  have htext : textOf (.char '"' :: as) = '"' :: textOf as := rfl
  rw [Scanned, htext]
  cases hliteral : literal? (textOf as) with
  | none =>
    rw [atoms_quote_none hliteral, List.cons.injEq]
    exact ⟨fun h => ⟨rfl, h.2⟩, fun h => ⟨rfl, h.2⟩⟩
  | some found =>
    obtain ⟨inner, rest⟩ := found
    rw [atoms_quote_some hliteral, List.cons.injEq]
    exact iff_of_false (fun h => by cases h.1) fun h => by cases h.1

/-- A literal is read as one when its second quote is what closes the first. -/
theorem scanned_cons_literal (inner : List Char) (as : List Atom) :
    Scanned (.literal inner :: as) ↔
      literal? (inner ++ '"' :: textOf as) = some (inner, textOf as) ∧ Scanned as := by
  have htext : textOf (.literal inner :: as) = '"' :: (inner ++ '"' :: textOf as) := by simp [Atom.text]
  rw [Scanned, htext]
  cases hliteral : literal? (inner ++ '"' :: textOf as) with
  | none =>
    rw [atoms_quote_none hliteral, List.cons.injEq]
    exact iff_of_false (fun h => by cases h.1) fun h => by cases h.1
  | some found =>
    obtain ⟨inner', rest⟩ := found
    rw [atoms_quote_some hliteral, List.cons.injEq, Atom.literal.injEq]
    constructor
    · rintro ⟨rfl, h⟩
      have hrest : textOf as = rest :=
        (List.cons.inj (List.append_cancel_left (text_of_literal? hliteral))).2
      exact ⟨by rw [hrest], by rw [Scanned, hrest, h]⟩
    · rintro ⟨hsame, h⟩
      obtain ⟨rfl, rfl⟩ := Prod.mk.inj (Option.some.inj hsame)
      exact ⟨rfl, h⟩

/-- What comes before and behind a plain character is read apart, and a quote that
stays open before it is not closed behind it. -/
theorem Scanned.of_append {c : Char} (hc : Plain c) {as bs : List Atom}
    (h : Scanned (as ++ .char c :: bs)) :
    Scanned as ∧ Scanned bs ∧ (.char '"' ∈ as → literal? (textOf bs) = none) := by
  have hsplit : ∀ as, textOf (as ++ .char c :: bs) = textOf as ++ c :: textOf bs := fun as => by
    rw [textOf_append, textOf_cons]
    rfl
  induction as with
  | nil =>
    have hnil : Scanned [] := by rw [Scanned, textOf_nil, atoms]
    exact ⟨hnil, (scanned_cons_char hc.1 bs).1 h, fun hmem => absurd hmem List.not_mem_nil⟩
  | cons a as ih =>
    rw [List.cons_append] at h
    cases a with
    | char d =>
      by_cases hd : d = '"'
      · subst hd
        obtain ⟨hliteral, hrest⟩ := (scanned_cons_quote _).1 h
        obtain ⟨has, hbs, -⟩ := ih hrest
        rw [hsplit, literal?_append_eq_none hc] at hliteral
        exact ⟨(scanned_cons_quote as).2 ⟨hliteral.1, has⟩, hbs, fun _ => hliteral.2⟩
      · obtain ⟨has, hbs, hquote⟩ := ih ((scanned_cons_char hd _).1 h)
        refine ⟨(scanned_cons_char hd as).2 has, hbs, fun hmem => hquote ?_⟩
        rcases List.mem_cons.1 hmem with heq | hmem
        · exact absurd (Atom.char.inj heq).symm hd
        · exact hmem
    | literal inner =>
      obtain ⟨hliteral, hrest⟩ := (scanned_cons_literal inner _).1 h
      obtain ⟨has, hbs, hquote⟩ := ih hrest
      refine ⟨(scanned_cons_literal inner as).2 ⟨literal?_of_append hliteral _, has⟩, hbs, fun hmem => hquote ?_⟩
      rcases List.mem_cons.1 hmem with heq | hmem
      · cases heq
      · exact hmem

end Field
end JobPipeline
