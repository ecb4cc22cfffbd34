import Mathlib.Data.List.Induction
import JobPipeline.Number.Numeral
import JobPipeline.Proofs.Text.Blank

/-
Runs of digits and the numbers they denote.

A number is written without leading zeros, and a run of digits without leading
zeros is the number it denotes, written.  Reading by hand is more generous: it
takes a plus sign and any leading zeros.
-/
namespace JobPipeline
namespace Numeral

theorem ofDigits_eq (ds : List Char) : ofDigits ds = Nat.ofDigitChars 10 ds 0 := rfl

theorem ofDigits_toDigits (n : Nat) : ofDigits (Nat.toDigits 10 n) = n := by
  rw [ofDigits_eq, Nat.ofDigitChars_ten_toDigits]

theorem toList_toString (n : Nat) : (toString n).toList = Nat.toDigits 10 n := by
  rw [Nat.toString_eq_ofList_toDigits, String.toList_ofList]

theorem all_isDigit_toDigits (n : Nat) : (Nat.toDigits 10 n).all Char.isDigit = true :=
  List.all_eq_true.2 fun _ hc => Nat.isDigit_of_mem_toDigits (by decide) (by decide) hc

theorem ofDigits_concat (ds : List Char) (d : Char) :
    ofDigits (ds ++ [d]) = 10 * ofDigits ds + digitValue d := by
  rw [ofDigits, List.foldl_append]
  rfl

theorem digitValue_lt {d : Char} (h : d.isDigit = true) : digitValue d < 10 := by
  have hbounds : 48 ≤ d.toNat ∧ d.toNat ≤ 57 := by
    simpa [Char.isDigit, UInt32.le_iff_toNat_le] using h
  have hzero : '0'.toNat = 48 := rfl
  rw [digitValue, hzero]
  omega

theorem digitChar_digitValue {d : Char} (h : d.isDigit = true) : Nat.digitChar (digitValue d) = d := by
  have hbounds : 48 ≤ d.toNat ∧ d.toNat ≤ 57 := by
    simpa [Char.isDigit, UInt32.le_iff_toNat_le] using h
  have hall : ∀ n < 58, 48 ≤ n → Nat.digitChar (n - 48) = Char.ofNat n := by decide
  have hd := hall d.toNat (by omega) hbounds.1
  rwa [Char.ofNat_toNat] at hd

/-- Digits that do not begin with zero denote no zero. -/
theorem ofDigits_pos {d : Char} {ds : List Char} (hd : d.isDigit = true) (hzero : d ≠ '0') :
    0 < ofDigits (d :: ds) := by
  have hpos : 0 < digitValue d := by
    refine Nat.pos_of_ne_zero fun h => hzero ?_
    have hchar := digitChar_digitValue hd
    rw [h] at hchar
    exact hchar.symm
  induction ds using List.reverseRecOn with
  | nil =>
    show 0 < 10 * 0 + digitValue d
    omega
  | append_singleton ds e ih =>
    rw [← List.cons_append, ofDigits_concat]
    omega

/-- Digits that do not begin with zero are the number they denote, written. -/
theorem toDigits_ofDigits {d : Char} {ds : List Char} (h : (d :: ds).all Char.isDigit = true)
    (hzero : d ≠ '0') : Nat.toDigits 10 (ofDigits (d :: ds)) = d :: ds := by
  have hd : d.isDigit = true := List.all_eq_true.1 h d List.mem_cons_self
  induction ds using List.reverseRecOn with
  | nil =>
    have hone : ofDigits [d] = digitValue d := by
      show 10 * 0 + digitValue d = _
      omega
    rw [hone, Nat.toDigits_of_lt_base (digitValue_lt hd), digitChar_digitValue hd]
  | append_singleton ds e ih =>
    rw [← List.cons_append, List.all_append, Bool.and_eq_true] at h
    have he : e.isDigit = true := List.all_eq_true.1 h.2 e List.mem_cons_self
    have hpos := @ofDigits_pos d ds hd hzero
    rw [← List.cons_append, ofDigits_concat,
      ← Nat.toDigits_append_toDigits (by decide) hpos (digitValue_lt he), ih h.1,
      Nat.toDigits_of_lt_base (digitValue_lt he), digitChar_digitValue he]

/-- A number above zero is written without a leading zero. -/
theorem head?_toDigits {n : Nat} (h : 0 < n) : (Nat.toDigits 10 n).head? ≠ some '0' := by
  induction n using Nat.strongRecOn with
  | ind n ih =>
    rcases Nat.lt_or_ge n 10 with hlt | hge
    · have hall : ∀ n < 10, 0 < n → Nat.digitChar n ≠ '0' := by decide
      rw [Nat.toDigits_of_lt_base hlt]
      exact fun heq => hall n hlt h (Option.some.inj heq)
    · have hquot : 0 < n / 10 := Nat.div_pos hge (by decide)
      have hcut := Nat.toDigits_append_toDigits (b := 10) (by decide) hquot
        (Nat.mod_lt n (by decide))
      rw [Nat.div_add_mod] at hcut
      have hfront := ih (n / 10) (Nat.div_lt_self h (by decide)) hquot
      rw [← hcut]
      cases hdigits : Nat.toDigits 10 (n / 10) with
      | nil => exact absurd hdigits Nat.toDigits_ne_nil
      | cons d ds =>
        rw [hdigits] at hfront
        exact hfront

theorem exists_head?_toString (n : Nat) :
    ∃ d, (toString n).toList.head? = some d ∧ d.isDigit = true := by
  have hdigits := all_isDigit_toDigits n
  obtain ⟨d, ds, htext⟩ := List.exists_cons_of_ne_nil (@Nat.toDigits_ne_nil n 10)
  rw [htext] at hdigits
  rw [toList_toString, htext]
  exact ⟨d, rfl, List.all_eq_true.1 hdigits d List.mem_cons_self⟩

theorem trimmed_toString (n : Nat) : Text.trimmed (toString n) = toString n := by
  have hall : ∀ c ∈ (toString n).toList, Text.isBlank c = false := by
    intro c hc
    rw [toList_toString] at hc
    have hdigit := List.all_eq_true.1 (all_isDigit_toDigits n) c hc
    have hbounds : 48 ≤ c.toNat ∧ c.toNat ≤ 57 := by
      simpa [Char.isDigit, UInt32.le_iff_toNat_le] using hdigit
    rw [Text.isBlank]
    simp only [Bool.or_eq_false_iff, Bool.and_eq_false_iff, decide_eq_false_iff_not, beq_eq_false_iff_ne]
    omega
  have htrim : Text.Trimmed (toString n).toList :=
    ⟨fun c hc => hall c (List.mem_of_mem_head? hc), fun c hc => hall c (List.mem_of_mem_getLast? hc)⟩
  rw [Text.trimmed, Text.trim_eq_self htrim, String.ofList_toList]

/-- What a whole number may be written as by hand. -/
theorem natural?_eq_some {most n : Nat} {s : String} (h : natural? most s = some n) :
    ∃ sign ds, s.toList = sign ++ ds ∧ (sign = [] ∨ sign = ['+']) ∧ ds ≠ [] ∧
      ds.all Char.isDigit = true ∧ ofDigits ds = n ∧ n ≤ most := by
  rw [natural?] at h
  obtain ⟨hread, hmost⟩ := Option.filter_eq_some_iff.1 h
  have hle : n ≤ most := by simpa using hmost
  split at hread
  · next ds heq =>
    rw [digits?] at hread
    split at hread
    · next hdigits =>
      cases hread
      exact ⟨['+'], ds, heq, .inr rfl, hdigits.1, hdigits.2, rfl, hle⟩
    · cases hread
  · rw [digits?] at hread
    split at hread
    · next hdigits =>
      cases hread
      exact ⟨[], s.toList, rfl, .inl rfl, hdigits.1, hdigits.2, rfl, hle⟩
    · cases hread

theorem natural?_le {most n : Nat} {s : String} (h : natural? most s = some n) : n ≤ most := by
  obtain ⟨_, _, _, _, _, _, _, hle⟩ := natural?_eq_some h
  exact hle

theorem ne_empty_of_natural? {most n : Nat} {s : String} (h : natural? most s = some n) : s ≠ "" := by
  rintro rfl
  obtain ⟨sign, ds, htext, -, hne, -⟩ := natural?_eq_some h
  exact hne (List.append_eq_nil_iff.1 htext.symm).2

theorem natural?_of_digits {most : Nat} {s : String} {sign ds : List Char}
    (hs : s.toList = sign ++ ds) (hsign : sign = [] ∨ sign = ['+']) (hne : ds ≠ [])
    (hdigits : ds.all Char.isDigit = true) (hle : ofDigits ds ≤ most) :
    natural? most s = some (ofDigits ds) := by
  have hread : digits? ds = some (ofDigits ds) := if_pos ⟨hne, hdigits⟩
  have hkeep : (some (ofDigits ds)).filter (· ≤ most) = some (ofDigits ds) := by
    rw [Option.filter, if_pos (decide_eq_true hle)]
  rw [natural?, hs]
  rcases hsign with rfl | rfl
  · split
    · next cs heq =>
      rw [List.nil_append] at heq
      rw [heq, List.all_cons, Bool.and_eq_true] at hdigits
      exact absurd hdigits.1 (by decide)
    · rw [List.nil_append, hread, hkeep]
  · show (digits? ds).filter _ = _
    rw [hread, hkeep]

theorem natural?_toString {most n : Nat} (h : n ≤ most) : natural? most (toString n) = some n := by
  have hself := ofDigits_toDigits n
  have hread : natural? most (toString n) = some (ofDigits (Nat.toDigits 10 n)) :=
    natural?_of_digits (toList_toString n) (.inl rfl) Nat.toDigits_ne_nil (all_isDigit_toDigits n)
      (hself.symm ▸ h)
  rw [hread, hself]

/-- A number that is written is read as itself or, where it is too large, not at all. -/
theorem eq_of_natural?_toString {most n k : Nat} (h : natural? most (toString k) = some n) : n = k := by
  obtain ⟨sign, ds, htext, hsign, -, hdigits, rfl, -⟩ := natural?_eq_some h
  rw [toList_toString] at htext
  rcases hsign with rfl | rfl
  · obtain rfl : ds = Nat.toDigits 10 k := htext.symm
    exact ofDigits_toDigits k
  · have hplus := List.all_eq_true.1 (all_isDigit_toDigits k) '+' (htext ▸ List.mem_cons_self)
    exact absurd hplus (by decide)

end Numeral
end JobPipeline
