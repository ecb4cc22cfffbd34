/-
The order of texts by their code points.

Everything that is listed by key is listed in this order: the entries of a
dictionary, the members of a written object, the specs of a store.
-/
namespace JobPipeline
namespace Text

/-- The first characters come before the second: at the first difference they
have the smaller code point, or they have ended. -/
def comesBefore : List Char → List Char → Bool
  | _, [] => false
  | [], _ :: _ => true
  | c :: cs, d :: ds => c.toNat < d.toNat || (c.toNat == d.toNat && comesBefore cs ds)

theorem comesBefore_self (cs : List Char) : comesBefore cs cs = false := by
  induction cs with
  | nil => rfl
  | cons c cs ih => simp [comesBefore, ih]

theorem comesBefore_trans {cs ds es : List Char} (h : comesBefore cs ds = true)
    (h' : comesBefore ds es = true) : comesBefore cs es = true := by
  induction cs generalizing ds es with
  | nil =>
    cases es with
    | nil => cases ds <;> simp [comesBefore] at h'
    | cons => rfl
  | cons c cs ih =>
    cases ds with
    | nil => simp [comesBefore] at h
    | cons d ds =>
      cases es with
      | nil => simp [comesBefore] at h'
      | cons e es =>
        simp only [comesBefore, Bool.or_eq_true, Bool.and_eq_true, decide_eq_true_eq,
          beq_iff_eq] at h h' ⊢
        rcases h with h | ⟨h, hcs⟩ <;> rcases h' with h' | ⟨h', hds⟩
        · exact .inl (Nat.lt_trans h h')
        · exact .inl (h' ▸ h)
        · exact .inl (h ▸ h')
        · exact .inr ⟨h.trans h', ih hcs hds⟩

/-- Of two different texts one comes before the other. -/
theorem eq_of_not_comesBefore {cs ds : List Char} (h : comesBefore cs ds = false)
    (h' : comesBefore ds cs = false) : cs = ds := by
  induction cs generalizing ds with
  | nil =>
    cases ds with
    | nil => rfl
    | cons => simp [comesBefore] at h
  | cons c cs ih =>
    cases ds with
    | nil => simp [comesBefore] at h'
    | cons d ds =>
      simp only [comesBefore, Bool.or_eq_false_iff, Bool.and_eq_false_imp, decide_eq_false_iff_not,
        beq_iff_eq] at h h'
      have hcd : c.toNat = d.toNat := by omega
      rw [Char.toNat_inj.1 hcd, ih (h.2 hcd) (h'.2 hcd.symm)]

/-- The first text comes before the second. -/
def Precedes (a b : String) : Prop := comesBefore a.toList b.toList = true

instance (a b : String) : Decidable (Precedes a b) :=
  inferInstanceAs (Decidable (comesBefore a.toList b.toList = true))

theorem not_precedes_self (a : String) : ¬Precedes a a := by
  simp [Precedes, comesBefore_self]

theorem Precedes.trans {a b c : String} (h : Precedes a b) (h' : Precedes b c) : Precedes a c :=
  comesBefore_trans h h'

theorem eq_of_not_precedes {a b : String} (h : ¬Precedes a b) (h' : ¬Precedes b a) : a = b :=
  String.toList_inj.1
    (eq_of_not_comesBefore (Bool.eq_false_iff.2 h) (Bool.eq_false_iff.2 h'))

end Text
end JobPipeline
