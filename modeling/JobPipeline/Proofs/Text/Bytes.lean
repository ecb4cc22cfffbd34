import Mathlib.Data.List.Basic

/-
Texts in UTF-8.

A character of ASCII is one byte below 128, and all bytes of any other are 128 and above.  So
a text of ASCII characters that is found among the bytes of a text is found among its
characters: it begins and ends where characters do.
-/
namespace JobPipeline
namespace Text

/-- A text in UTF-8. -/
def bytes (cs : List Char) : List UInt8 := cs.flatMap String.utf8EncodeChar

@[simp] theorem bytes_nil : bytes [] = [] := rfl

@[simp] theorem bytes_cons (c : Char) (cs : List Char) : bytes (c :: cs) = String.utf8EncodeChar c ++ bytes cs :=
  List.flatMap_cons

@[simp] theorem bytes_append (cs ds : List Char) : bytes (cs ++ ds) = bytes cs ++ bytes ds :=
  List.flatMap_append

theorem utf8EncodeChar_ascii {c : Char} (h : c.toNat < 128) : String.utf8EncodeChar c = [c.toUInt8] := by
  have hle : c.val.toNat ≤ 127 := Nat.le_of_lt_succ h
  rw [String.utf8EncodeChar]
  simp only [hle, if_true]
  rfl

theorem bytes_cons_ascii {c : Char} (h : c.toNat < 128) (cs : List Char) :
    bytes (c :: cs) = c.toUInt8 :: bytes cs := by
  rw [bytes_cons, utf8EncodeChar_ascii h, List.singleton_append]

theorem le_of_mem_utf8EncodeChar {c : Char} (h : 128 ≤ c.toNat) {b : UInt8}
    (hb : b ∈ String.utf8EncodeChar c) : 128 ≤ b.toNat := by
  have hgt : ¬c.val.toNat ≤ 127 := Nat.not_le_of_gt h
  rw [String.utf8EncodeChar] at hb
  simp only [if_neg hgt] at hb
  split at hb
  · simp only [List.mem_cons, List.not_mem_nil, or_false] at hb
    rcases hb with rfl | rfl <;> simp only [UInt8.toNat_ofNat'] <;> omega
  split at hb
  · simp only [List.mem_cons, List.not_mem_nil, or_false] at hb
    rcases hb with rfl | rfl | rfl <;> simp only [UInt8.toNat_ofNat'] <;> omega
  · simp only [List.mem_cons, List.not_mem_nil, or_false] at hb
    rcases hb with rfl | rfl | rfl | rfl <;> simp only [UInt8.toNat_ofNat'] <;> omega

theorem toNat_toUInt8 {c : Char} (h : c.toNat < 128) : c.toUInt8.toNat = c.toNat := by
  show c.val.toNat % 2 ^ 8 = c.val.toNat
  exact Nat.mod_eq_of_lt (Nat.lt_trans h (by decide))

theorem bytes_ascii {cs : List Char} (h : ∀ c ∈ cs, c.toNat < 128) : bytes cs = cs.map Char.toUInt8 := by
  induction cs with
  | nil => rfl
  | cons c cs ih =>
    obtain ⟨hc, hcs⟩ := List.forall_mem_cons.1 h
    rw [bytes_cons_ascii hc, ih hcs, List.map_cons]

theorem bytes_eq_nil {cs : List Char} : bytes cs = [] ↔ cs = [] := by
  rw [bytes, List.flatMap_eq_nil_iff]
  constructor
  · intro h
    cases cs with
    | nil => rfl
    | cons c cs => exact absurd (h c List.mem_cons_self) String.utf8EncodeChar_ne_nil
  · rintro rfl
    exact List.forall_mem_nil _

/-- The character that a byte of ASCII is. -/
def ofByte (b : UInt8) : Char := Char.ofNat b.toNat

theorem ofByte_toUInt8 {c : Char} (h : c.toNat < 128) : ofByte c.toUInt8 = c := by
  rw [ofByte, toNat_toUInt8 h, Char.ofNat_toNat]

theorem toNat_ofByte (b : UInt8) : (ofByte b).toNat = b.toNat := by
  have hvalid : b.toNat.isValidChar := .inl (Nat.lt_trans b.toNat_lt (by decide))
  rw [ofByte, Char.ofNat, dif_pos hvalid]
  rfl

theorem map_ofByte_bytes {cs : List Char} (h : ∀ c ∈ cs, c.toNat < 128) : (bytes cs).map ofByte = cs := by
  rw [bytes_ascii h, List.map_map]
  conv_rhs => rw [← List.map_id cs]
  exact List.map_congr_left fun c hc => ofByte_toUInt8 (h c hc)

theorem exists_bytes_cons {c : Char} (h : 128 ≤ c.toNat) (cs : List Char) :
    ∃ b bs, bytes (c :: cs) = b :: bs ∧ 128 ≤ b.toNat := by
  obtain ⟨b, bs, hchar⟩ := List.exists_cons_of_ne_nil (String.utf8EncodeChar_ne_nil (c := c))
  refine ⟨b, bs ++ bytes cs, ?_, le_of_mem_utf8EncodeChar h (hchar ▸ List.mem_cons_self)⟩
  rw [bytes_cons, hchar, List.cons_append]

/-- A class of characters of ASCII goes as far among the bytes of a text as in the text. -/
theorem takeWhile_bytes {p : Char → Bool} (hp : ∀ c, p c = true → c.toNat < 128) (cs : List Char) :
    (bytes cs).takeWhile (fun b => p (ofByte b)) = bytes (cs.takeWhile p) ∧
      (bytes cs).dropWhile (fun b => p (ofByte b)) = bytes (cs.dropWhile p) := by
  induction cs with
  | nil => exact ⟨rfl, rfl⟩
  | cons c cs ih =>
    rcases Nat.lt_or_ge c.toNat 128 with hc | hc
    · rw [bytes_cons_ascii hc, List.takeWhile_cons, List.takeWhile_cons, List.dropWhile_cons,
        List.dropWhile_cons, ofByte_toUInt8 hc]
      split
      · rw [bytes_cons_ascii hc, ih.1, ih.2]
        exact ⟨rfl, rfl⟩
      · exact ⟨rfl, (bytes_cons_ascii hc cs).symm⟩
    · have hpc : ¬p c = true := fun h => Nat.not_lt.2 hc (hp c h)
      obtain ⟨b, bs, hbytes, hb⟩ := exists_bytes_cons hc cs
      have hpb : ¬p (ofByte b) = true := by
        intro h
        have hlt := hp _ h
        rw [toNat_ofByte] at hlt
        omega
      rw [List.takeWhile_cons_of_neg hpc, List.dropWhile_cons_of_neg hpc, hbytes]
      exact ⟨List.takeWhile_cons_of_neg hpb, List.dropWhile_cons_of_neg hpb⟩

/-- A byte of ASCII is a character of its own. -/
theorem exists_of_bytes_eq_append_cons {cs : List Char} {before after : List UInt8} {b : UInt8}
    (hb : b.toNat < 128) (h : bytes cs = before ++ b :: after) :
    ∃ front c back, cs = front ++ c :: back ∧ c.toUInt8 = b ∧ c.toNat < 128 ∧ bytes front = before ∧
      bytes back = after := by
  induction cs generalizing before with
  | nil => simp at h
  | cons c cs ih =>
    rw [bytes_cons] at h
    rcases List.append_eq_append_iff.1 h with ⟨more, rfl, hmore⟩ | ⟨more, hmore, hafter⟩
    · obtain ⟨front, d, back, rfl, hd, hlt, rfl, rfl⟩ := ih hmore
      exact ⟨c :: front, d, back, rfl, hd, hlt, bytes_cons c front, rfl⟩
    · cases more with
      | nil =>
        have hbegins : bytes cs = [] ++ b :: after := hafter.symm
        obtain ⟨front, d, back, rfl, hd, hlt, hfront, rfl⟩ := ih hbegins
        refine ⟨c :: front, d, back, rfl, hd, hlt, ?_, rfl⟩
        rw [bytes_cons, hfront, hmore, List.append_nil, List.append_nil]
      | cons b' more =>
        obtain ⟨rfl, rfl⟩ := List.cons.inj hafter
        have hmem : b ∈ String.utf8EncodeChar c := by
          rw [hmore]
          exact List.mem_append_right _ List.mem_cons_self
        have hc : c.toNat < 128 := by
          by_contra hc
          exact absurd (le_of_mem_utf8EncodeChar (Nat.not_lt.1 hc) hmem) (Nat.not_le_of_gt hb)
        rw [utf8EncodeChar_ascii hc] at hmore
        rcases List.singleton_eq_append_iff.1 hmore with ⟨rfl, hone⟩ | ⟨-, hnone⟩
        · obtain ⟨rfl, rfl⟩ := List.cons.inj hone
          exact ⟨[], c, cs, rfl, rfl, hc, rfl, rfl⟩
        · cases hnone

theorem exists_of_bytes_eq_append_char {cs : List Char} {before after : List UInt8} {c : Char}
    (hc : c.toNat < 128) (h : bytes cs = before ++ c.toUInt8 :: after) :
    ∃ front back, cs = front ++ c :: back ∧ bytes front = before ∧ bytes back = after := by
  have hbyte : c.toUInt8.toNat < 128 := by rwa [toNat_toUInt8 hc]
  obtain ⟨front, d, back, rfl, hd, hlt, hfront, hback⟩ := exists_of_bytes_eq_append_cons hbyte h
  have hnat := congrArg UInt8.toNat hd
  rw [toNat_toUInt8 hlt, toNat_toUInt8 hc] at hnat
  rw [Char.toNat_inj.1 hnat]
  exact ⟨front, back, rfl, hfront, hback⟩

theorem exists_of_bytes_eq_append {cs token : List Char} {after : List UInt8}
    (hascii : ∀ c ∈ token, c.toNat < 128) (h : bytes cs = bytes token ++ after) :
    ∃ back, cs = token ++ back ∧ bytes back = after := by
  induction token generalizing cs with
  | nil => exact ⟨cs, rfl, h⟩
  | cons c token ih =>
    obtain ⟨hc, htoken⟩ := List.forall_mem_cons.1 hascii
    rw [bytes_cons_ascii hc] at h
    have hbegins : bytes cs = [] ++ c.toUInt8 :: (bytes token ++ after) := h
    obtain ⟨front, rest, rfl, hfront, hrest⟩ := exists_of_bytes_eq_append_char hc hbegins
    obtain rfl := bytes_eq_nil.1 hfront
    obtain ⟨back, rfl, hback⟩ := ih htoken hrest
    exact ⟨back, rfl, hback⟩

/-- A text of ASCII that is found among the bytes of a text is found in the text. -/
theorem exists_of_bytes_eq {cs token : List Char} {before after : List UInt8}
    (hascii : ∀ c ∈ token, c.toNat < 128) (hne : token ≠ [])
    (h : bytes cs = before ++ (bytes token ++ after)) :
    ∃ front back, cs = front ++ (token ++ back) ∧ bytes front = before ∧ bytes back = after := by
  obtain ⟨c, token, rfl⟩ := List.exists_cons_of_ne_nil hne
  obtain ⟨hc, htoken⟩ := List.forall_mem_cons.1 hascii
  rw [bytes_cons_ascii hc] at h
  obtain ⟨front, rest, rfl, hfront, hrest⟩ := exists_of_bytes_eq_append_char hc h
  obtain ⟨back, rfl, hback⟩ := exists_of_bytes_eq_append htoken hrest
  exact ⟨front, back, rfl, hfront, hback⟩

end Text
end JobPipeline
