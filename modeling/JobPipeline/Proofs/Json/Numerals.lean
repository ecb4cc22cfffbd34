import JobPipeline.Json.Printer
import JobPipeline.Json.Reader
import JobPipeline.Proofs.Number.Digits

/-
Numbers that are written and read back.

Not every number is read back from its text as it was, since reading rounds twice.  Of one
that is, the text can stand anywhere in a larger text: the reader stops at a comma or a
closing bracket, as none of the characters of a number is one.
-/
namespace JobPipeline
namespace Json

/-- The text of the number is read as the number. -/
def Number.Rereads (n : Number) : Prop := valueOf? n.text = some (.number n)

instance (n : Number) : Decidable n.Rereads :=
  inferInstanceAs (Decidable (valueOf? n.text = some (.number n)))

/-! ## The characters of a number -/

/-- A digit, or what else stands in the text of a number. -/
def IsMark (c : Char) : Prop := c.isDigit = true ∨ c ∈ ['-', '+', '.', 'e']

theorem IsMark.isSpace {c : Char} (h : IsMark c) : isSpace c = false := by
  rw [Bool.eq_false_iff]
  intro hspace
  rw [Json.isSpace, Bool.or_eq_true, Bool.or_eq_true, Bool.or_eq_true, beq_iff_eq, beq_iff_eq, beq_iff_eq,
    beq_iff_eq] at hspace
  rcases hspace with ((rfl | rfl) | rfl) | rfl <;> revert h <;> simp [IsMark]

theorem isMark_of_mem_toDigits {n : Nat} {c : Char} (h : c ∈ Nat.toDigits 10 n) : IsMark c :=
  .inl (Nat.isDigit_of_mem_toDigits (by decide) (by decide) h)

theorem isMark_of_mem_digits {tie : Binary64.Tie} {m : Nat} {c : Char}
    (h : c ∈ (Binary64.digits tie m).1) : IsMark c := by
  rw [Binary64.digits, List.mem_reverse] at h
  exact isMark_of_mem_toDigits (List.mem_reverse.1 ((List.dropWhile_sublist _).subset h))

theorem isMark_of_mem_positional {ds : List Char} {k : Int} (hds : ∀ c ∈ ds, IsMark c) :
    ∀ c ∈ Binary64.positional ds k, IsMark c := by
  have hzero : IsMark '0' := .inl rfl
  have hpoint : IsMark '.' := .inr (by simp)
  have hzeros : ∀ {n : Nat}, ∀ c ∈ List.replicate n '0', IsMark c := fun c hc =>
    (List.mem_replicate.1 hc).2 ▸ hzero
  rw [Binary64.positional]
  split
  · simp only [List.cons_append, List.forall_mem_cons, List.forall_mem_append]
    exact ⟨hzero, hpoint, hzeros, hds⟩
  · have hwhole : ∀ c ∈ ds.take k.toNat ++ List.replicate (k.toNat - ds.length) '0', IsMark c :=
      List.forall_mem_append.2 ⟨fun c hc => hds c (List.mem_of_mem_take hc), hzeros⟩
    dsimp only
    split
    · exact List.forall_mem_append.2 ⟨hwhole, by simp [hzero, hpoint]⟩
    · next hrest =>
      refine List.forall_mem_append.2 ⟨hwhole, List.forall_mem_cons.2 ⟨hpoint, fun c hc => ?_⟩⟩
      exact hds c (List.mem_of_mem_drop hc)

theorem isMark_of_mem_scientific {ds : List Char} {k : Int} (hds : ∀ c ∈ ds, IsMark c) :
    ∀ c ∈ Binary64.scientific ds k, IsMark c := by
  have he : IsMark 'e' := .inr (by simp)
  have hpoint : IsMark '.' := .inr (by simp)
  have hpower : ∀ c ∈ (if 0 ≤ k - 1 then '+' else '-') :: Nat.toDigits 10 (k - 1).natAbs, IsMark c := by
    refine List.forall_mem_cons.2 ⟨?_, fun c => isMark_of_mem_toDigits⟩
    split
    · exact .inr (by simp)
    · exact .inr (by simp)
  rw [Binary64.scientific.eq_def]
  dsimp only
  split
  · exact List.forall_mem_cons.2 ⟨hds _ List.mem_cons_self, List.forall_mem_cons.2 ⟨he, hpower⟩⟩
  · next d rest _ =>
    simp only [List.cons_append, List.forall_mem_cons, List.forall_mem_append] at hpower ⊢
    exact ⟨hds d List.mem_cons_self, hpoint, fun c hc => hds c (List.mem_cons_of_mem d hc), he, hpower⟩
  · exact List.forall_mem_cons.2 ⟨he, hpower⟩

theorem isMark_minus : IsMark '-' := .inr List.mem_cons_self

theorem isMark_of_mem_signed {x : Binary64} {cs : List Char} (h : ∀ c ∈ cs, IsMark c) :
    ∀ c ∈ (Binary64.signed x cs).toList, IsMark c := by
  rw [Binary64.signed, String.toList_ofList]
  split
  · exact List.forall_mem_cons.2 ⟨isMark_minus, h⟩
  · exact h

theorem isMark_of_mem_text {n : Number} : ∀ c ∈ n.text.toList, IsMark c := by
  cases n with
  | whole n =>
    cases n with
    | ofNat n =>
      show ∀ c ∈ (toString n).toList, IsMark c
      rw [Numeral.toList_toString]
      exact fun c => isMark_of_mem_toDigits
    | negSucc n =>
      show ∀ c ∈ ("-" ++ toString (n + 1)).toList, IsMark c
      rw [String.toList_append, Numeral.toList_toString]
      exact List.forall_mem_cons.2 ⟨isMark_minus, fun c => isMark_of_mem_toDigits⟩
  | real x =>
    rw [Number.text, Binary64.jsonText]
    refine isMark_of_mem_signed ?_
    split
    · simp [IsMark]
    · dsimp only
      split
      · exact isMark_of_mem_positional fun c => isMark_of_mem_digits
      · exact isMark_of_mem_scientific fun c => isMark_of_mem_digits

/-! ## Numerals in a larger text -/

/-- The text goes on behind a value, if it goes on at all. -/
def Closed (rest : List Char) : Prop := ∀ c ∈ rest.head?, c = ',' ∨ c = ']' ∨ c = '\x7d'

theorem Closed.not_isDigit {rest : List Char} (h : Closed rest) : ∀ c ∈ rest.head?, c.isDigit = false := by
  intro c hc
  rcases h c hc with rfl | rfl | rfl <;> rfl

/-- Taking characters from the front comes to the same when others follow that are not taken. -/
theorem takeWhile_append_of_head {p : Char → Bool} (cs : List Char) {rest : List Char}
    (h : ∀ c ∈ rest.head?, p c = false) : (cs ++ rest).takeWhile p = cs.takeWhile p := by
  induction cs with
  | nil =>
    cases rest with
    | nil => rfl
    | cons c rest =>
      rw [List.nil_append, List.takeWhile_cons, h c rfl]
      rfl
  | cons c cs ih =>
    rw [List.cons_append, List.takeWhile_cons, List.takeWhile_cons, ih]

theorem dropWhile_append_of_head {p : Char → Bool} (cs : List Char) {rest : List Char}
    (h : ∀ c ∈ rest.head?, p c = false) : (cs ++ rest).dropWhile p = cs.dropWhile p ++ rest := by
  induction cs with
  | nil => exact Text.dropWhile_eq_self h
  | cons c cs ih =>
    rw [List.cons_append, List.dropWhile_cons, List.dropWhile_cons, ih]
    split <;> rfl

/-- The digits of an exponent behind its sign, and whether it is negative. -/
def unsigned : List Char → Bool × List Char
  | '-' :: cs => (true, cs)
  | '+' :: cs => (false, cs)
  | cs => (false, cs)

theorem unsigned_append {cs rest : List Char} (hrest : Closed rest) :
    unsigned (cs ++ rest) = ((unsigned cs).1, (unsigned cs).2 ++ rest) := by
  cases cs with
  | nil =>
    cases rest with
    | nil => rfl
    | cons c rest => rcases hrest c rfl with rfl | rfl | rfl <;> rfl
  | cons c cs =>
    by_cases hminus : c = '-'
    · rw [hminus]
      rfl
    · by_cases hplus : c = '+'
      · rw [hplus]
        rfl
      · simp [unsigned, hminus, hplus]

theorem exponentPart?_cons (c : Char) (cs : List Char) :
    exponentPart? (c :: cs) =
      if c = 'e' ∨ c = 'E' then
        if (unsigned cs).2.takeWhile Char.isDigit = [] then none
        else some (some ⟨(unsigned cs).1, (unsigned cs).2.takeWhile Char.isDigit⟩,
          (unsigned cs).2.dropWhile Char.isDigit)
      else some (none, c :: cs) := by
  rw [exponentPart?.eq_def]
  dsimp only
  split
  · split
    · rfl
    · rfl
    · next hminus hplus =>
      have hcs : unsigned cs = (false, cs) := by
        rw [unsigned.eq_def]
        split
        · exact absurd rfl (hminus _)
        · exact absurd rfl (hplus _)
        · rfl
      rw [hcs]
  · rfl

/-- The exponent that ends a text is the one at its start when the text goes on. -/
theorem exponentPart?_append {cs rest : List Char} {e : Option Exponent}
    (h : exponentPart? cs = some (e, [])) (hrest : Closed rest) :
    exponentPart? (cs ++ rest) = some (e, rest) := by
  cases cs with
  | nil =>
    cases h
    cases rest with
    | nil => rfl
    | cons c rest =>
      have hc : ¬(c = 'e' ∨ c = 'E') := by
        rcases hrest c rfl with rfl | rfl | rfl <;> decide
      rw [List.nil_append, exponentPart?_cons, if_neg hc]
  | cons c cs =>
    rw [exponentPart?_cons] at h
    rw [List.cons_append, exponentPart?_cons, unsigned_append hrest,
      takeWhile_append_of_head _ hrest.not_isDigit, dropWhile_append_of_head _ hrest.not_isDigit]
    by_cases hc : c = 'e' ∨ c = 'E'
    · rw [if_pos hc] at h ⊢
      split at h
      · cases h
      · next hdigits =>
        simp only [Option.some.injEq, Prod.mk.injEq] at h
        rw [if_neg hdigits, h.1, h.2, List.nil_append]
    · rw [if_neg hc] at h
      cases h

theorem exponentPart?_subset {cs rest : List Char} {e : Option Exponent}
    (h : exponentPart? cs = some (e, rest)) : ∀ c ∈ rest, c ∈ cs := by
  have hunsigned : ∀ cs : List Char, ∀ c ∈ (unsigned cs).2, c ∈ cs := by
    intro cs c hc
    rw [unsigned.eq_def] at hc
    split at hc
    · exact List.mem_cons_of_mem _ hc
    · exact List.mem_cons_of_mem _ hc
    · exact hc
  cases cs with
  | nil =>
    cases h
    exact fun c hc => hc
  | cons c cs =>
    rw [exponentPart?_cons] at h
    split at h
    · split at h
      · cases h
      · cases h
        exact fun d hd => List.mem_cons_of_mem c (hunsigned cs d ((List.dropWhile_sublist _).subset hd))
    · cases h
      exact fun d hd => hd

/-- The part behind a point, with its digits. -/
def pointed : List Char → Option (List Char)
  | '.' :: cs => some cs
  | _ => none

theorem spelling?_eq (negative : Bool) (cs : List Char) :
    spelling? negative cs =
      if cs.takeWhile Char.isDigit = [] ∨
          (1 < (cs.takeWhile Char.isDigit).length ∧ (cs.takeWhile Char.isDigit).head? = some '0') then none
      else match pointed (cs.dropWhile Char.isDigit) with
        | some rest =>
          if rest.takeWhile Char.isDigit = [] then none
          else (exponentPart? (rest.dropWhile Char.isDigit)).map fun (e, rest') =>
            (⟨negative, cs.takeWhile Char.isDigit, rest.takeWhile Char.isDigit, e⟩, rest')
        | none => (exponentPart? (cs.dropWhile Char.isDigit)).map fun (e, rest) =>
            (⟨negative, cs.takeWhile Char.isDigit, [], e⟩, rest) := by
  rw [spelling?]
  dsimp only
  split
  · rfl
  · split
    · next rest hpoint =>
      rw [hpoint]
      rfl
    · next hpoint =>
      have hnone : pointed (cs.dropWhile Char.isDigit) = none := by
        rw [pointed.eq_def]
        split
        · next heq => exact absurd heq (hpoint _)
        · rfl
      rw [hnone]

/-- The numeral that is all of a text is the one at its start when the text goes on. -/
theorem spelling?_append {negative : Bool} {cs rest : List Char} {s : Spelling}
    (h : spelling? negative cs = some (s, [])) (hrest : Closed rest) :
    spelling? negative (cs ++ rest) = some (s, rest) := by
  have hpointed : ∀ behind : List Char, pointed (behind ++ rest) = (pointed behind).map (· ++ rest) := by
    intro behind
    cases behind with
    | nil =>
      cases rest with
      | nil => rfl
      | cons c rest => rcases hrest c rfl with rfl | rfl | rfl <;> rfl
    | cons c behind =>
      by_cases hpoint : c = '.'
      · rw [hpoint]
        rfl
      · simp [pointed, hpoint]
  rw [spelling?_eq] at h ⊢
  rw [takeWhile_append_of_head cs hrest.not_isDigit, dropWhile_append_of_head cs hrest.not_isDigit, hpointed]
  split at h
  · cases h
  · next hwhole =>
    rw [if_neg hwhole]
    cases hpoint : pointed (cs.dropWhile Char.isDigit) with
    | some behind =>
      simp only [hpoint] at h
      split at h
      · cases h
      · next hpart =>
        obtain ⟨⟨e, left⟩, hexponent, heq⟩ := Option.map_eq_some_iff.1 h
        cases heq
        simp only [Option.map_some, takeWhile_append_of_head behind hrest.not_isDigit,
          dropWhile_append_of_head behind hrest.not_isDigit, if_neg hpart, exponentPart?_append hexponent hrest]
    | none =>
      simp only [hpoint] at h
      obtain ⟨⟨e, left⟩, hexponent, heq⟩ := Option.map_eq_some_iff.1 h
      cases heq
      simp only [Option.map_none, Option.map_some, exponentPart?_append hexponent hrest]

theorem spelling?_subset {negative : Bool} {cs rest : List Char} {s : Spelling}
    (h : spelling? negative cs = some (s, rest)) : ∀ c ∈ rest, c ∈ cs := by
  have hdrop : ∀ (cs : List Char), ∀ c ∈ cs.dropWhile Char.isDigit, c ∈ cs := fun cs =>
    (List.dropWhile_sublist _).subset
  rw [spelling?_eq] at h
  split at h
  · cases h
  · cases hpoint : pointed (cs.dropWhile Char.isDigit) with
    | some behind =>
      have hbehind : ∀ c ∈ behind, c ∈ cs := by
        intro c hc
        refine hdrop cs c ?_
        rw [pointed.eq_def] at hpoint
        split at hpoint
        · next heq =>
          cases hpoint
          rw [heq]
          exact List.mem_cons_of_mem _ hc
        · cases hpoint
      simp only [hpoint] at h
      split at h
      · cases h
      · obtain ⟨⟨e, left⟩, hexponent, heq⟩ := Option.map_eq_some_iff.1 h
        cases heq
        exact fun c hc => hbehind c (hdrop behind c (exponentPart?_subset hexponent c hc))
    | none =>
      simp only [hpoint] at h
      obtain ⟨⟨e, left⟩, hexponent, heq⟩ := Option.map_eq_some_iff.1 h
      cases heq
      exact fun c hc => hdrop cs c (exponentPart?_subset hexponent c hc)

theorem numberTail?_eq_some {negative : Bool} {cs rest : List Char} {n : Number} :
    numberTail? .everything negative cs = some (.number n, rest) ↔
      ∃ s, spelling? negative cs = some (s, rest) ∧ s.number? = some n := by
  rw [numberTail?.eq_def]
  split
  · next hnone => simp [hnone]
  · next hscope => cases hscope
  · next s left hspelling _ =>
    rw [hspelling]
    constructor
    · intro h
      obtain ⟨m, hnumber, heq⟩ := Option.map_eq_some_iff.1 h
      cases heq
      exact ⟨s, rfl, hnumber⟩
    · rintro ⟨s', heq, hnumber⟩
      cases heq
      rw [hnumber]
      rfl

/-! ## Numbers in a larger text -/

theorem skipSpace_cons {c : Char} (h : isSpace c = false) (cs : List Char) : skipSpace (c :: cs) = c :: cs := by
  rw [skipSpace, List.dropWhile_cons, h]
  rfl

theorem value?_minus (fuel depth : Nat) (scope : Scope) (cs : List Char) :
    value? (fuel + 1) depth scope ('-' :: cs) = numberTail? scope true cs := by
  rw [value?, skipSpace_cons rfl]
  rfl

theorem value?_digit (fuel depth : Nat) (scope : Scope) {c : Char} (h : c.isDigit = true) (cs : List Char) :
    value? (fuel + 1) depth scope (c :: cs) = numberTail? scope false (c :: cs) := by
  have hhead : ∀ {d : Char} {rest : List Char}, c :: cs = d :: rest → d.isDigit = true := fun heq =>
    (List.cons.inj heq).1 ▸ h
  rw [value?, skipSpace_cons (IsMark.isSpace (.inl h))]
  split
  case h_8 => rfl
  all_goals
    rename_i heq
    exact absurd (hhead heq) (by decide)

/-- What is read as a number begins with a minus sign or a digit. -/
theorem exists_numberTail?_of_value? {fuel depth : Nat} {cs rest : List Char} {n : Number}
    (h : value? fuel depth .everything cs = some (.number n, rest)) :
    (∃ body, skipSpace cs = '-' :: body ∧ numberTail? .everything true body = some (.number n, rest)) ∨
      ∃ c body, skipSpace cs = c :: body ∧ c.isDigit = true ∧
        numberTail? .everything false (c :: body) = some (.number n, rest) := by
  cases fuel with
  | zero => cases h
  | succ fuel =>
    rw [value?] at h
    split at h
    · cases h
    · cases h
    · cases h
    · obtain ⟨_, -, heq⟩ := Option.map_eq_some_iff.1 h
      cases heq
    · next body heq => exact .inl ⟨body, heq, h⟩
    · split at h
      · cases h
      · split at h
        · cases h
        · obtain ⟨_, -, heq⟩ := Option.map_eq_some_iff.1 h
          cases heq
    · split at h
      · cases h
      · split at h
        · cases h
        · obtain ⟨_, -, heq⟩ := Option.map_eq_some_iff.1 h
          cases heq
    · obtain ⟨s, hspelling, -⟩ := numberTail?_eq_some.1 h
      refine .inr ?_
      cases hskip : skipSpace cs with
      | nil =>
        rw [hskip] at hspelling
        cases hspelling
      | cons c body =>
        refine ⟨c, body, rfl, ?_, hskip ▸ h⟩
        rw [hskip, spelling?_eq, List.takeWhile_cons] at hspelling
        by_contra hdigit
        simp [hdigit] at hspelling

theorem value?_text {n : Number} (h : n.Rereads) (fuel depth : Nat) {rest : List Char} (hrest : Closed rest) :
    value? (fuel + 1) depth .everything (n.text.toList ++ rest) = some (.number n, rest) := by
  obtain ⟨json, hread, hcanonical⟩ := Option.map_eq_some_iff.1 h
  have hjson : json = .number n := by
    cases json with
    | number m => exact hcanonical
    | _ => cases hcanonical
  subst hjson
  rw [read?, readWithin?] at hread
  split at hread
  · next json left hvalue =>
    split at hread
    · next hend =>
      cases hread
      have hmarks := isMark_of_mem_text (n := n)
      have hskip : skipSpace n.text.toList = n.text.toList := Text.dropWhile_eq_self fun c hc =>
        (hmarks c (List.mem_of_mem_head? hc)).isSpace
      -- What is left over has no blanks in it, so it is nothing.
      have hleft : ∀ {negative : Bool} {body : List Char}, (∀ c ∈ body, IsMark c) →
          numberTail? .everything negative body = some (.number n, left) →
          numberTail? .everything negative (body ++ rest) = some (.number n, rest) := by
        intro negative body hbody htail
        obtain ⟨s, hspelling, hnumber⟩ := numberTail?_eq_some.1 htail
        have hnil : left = [] := by
          rw [← hend]
          refine (Text.dropWhile_eq_self fun c hc => ?_).symm
          exact (hbody c (spelling?_subset hspelling c (List.mem_of_mem_head? hc))).isSpace
        subst hnil
        exact numberTail?_eq_some.2 ⟨s, spelling?_append hspelling hrest, hnumber⟩
      rcases exists_numberTail?_of_value? hvalue with ⟨body, hbody, htail⟩ | ⟨c, body, hbody, hdigit, htail⟩
      · rw [hskip] at hbody
        rw [hbody] at hmarks ⊢
        rw [List.cons_append, value?_minus]
        exact hleft (fun c hc => hmarks c (List.mem_cons_of_mem _ hc)) htail
      · rw [hskip] at hbody
        rw [hbody] at hmarks ⊢
        rw [List.cons_append, value?_digit fuel depth .everything hdigit]
        exact hleft hmarks htail
    · cases hread
  · cases hread

/-- The text of a number that is read back begins with no blank and no bracket. -/
theorem exists_text_eq_cons {n : Number} (h : n.Rereads) : ∃ c cs, n.text.toList = c :: cs ∧ IsMark c := by
  cases htext : n.text.toList with
  | nil =>
    have hempty : n.text = "" := String.toList_inj.1 htext
    rw [Number.Rereads, hempty] at h
    cases h
  | cons c cs =>
    exact ⟨c, cs, rfl, isMark_of_mem_text c (htext ▸ List.mem_cons_self)⟩

end Json
end JobPipeline
