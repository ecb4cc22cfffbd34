import JobPipeline.Number.Binary64
import Mathlib.Data.Nat.Log

/-
Natural numbers of 53 binary digits at the most are binary64 numbers.

Such a number has its highest digit at a place not above the 52nd, so the unit it is measured in
divides one, and nothing is rounded.
-/
namespace JobPipeline
namespace Binary64

theorem twoTo_add (m n : Nat) : twoTo (m + n) = twoTo m * twoTo n := Nat.pow_add 2 m n

theorem fraction_pos (m : Nat) : 0 < (fraction m).2 := by
  rw [fraction]
  split
  · dsimp only
    exact twoTo_pos _
  · dsimp only
    split
    · exact Nat.one_pos
    · exact twoTo_pos _

theorem nearest_one (n : Nat) : nearest n 1 = n := by
  rw [nearest, Nat.div_one, Nat.mod_one]
  exact if_neg (by simp)

section

variable {n : Nat} (hpos : n ≠ 0) (hsmall : n < twoTo 53)
include hpos hsmall

theorem log2_le : n.log2 ≤ 52 := Nat.le_of_lt_succ ((Nat.log2_lt hpos).2 hsmall)

/-- Shifted to the 52nd place, the highest digit is there and no higher one is. -/
theorem shifted_bounds :
    twoTo 52 ≤ n * twoTo (52 - n.log2) ∧ n * twoTo (52 - n.log2) < 2 * twoTo 52 := by
  have hlog := log2_le hpos hsmall
  have hunit : twoTo n.log2 * twoTo (52 - n.log2) = twoTo 52 := by
    rw [← twoTo_add, Nat.add_sub_cancel' hlog]
  have hlower : twoTo n.log2 ≤ n := Nat.log2_self_le hpos
  have hupper : n < 2 * twoTo n.log2 := by
    have hlt : n < 2 ^ (n.log2 + 1) := Nat.lt_log2_self
    rwa [Nat.pow_succ, Nat.mul_comm] at hlt
  rw [← hunit, ← Nat.mul_assoc]
  exact ⟨Nat.mul_le_mul_right _ hlower, Nat.mul_lt_mul_of_pos_right hupper (twoTo_pos _)⟩

theorem unitExponent_one : unitExponent n 1 = (n.log2 : Int) - 52 := by
  have hlog := log2_le hpos hsmall
  have hlower : 1 * twoTo n.log2 ≤ n := by
    rw [Nat.one_mul]
    exact Nat.log2_self_le hpos
  have hone : Nat.log2 1 = 0 := by decide
  simp only [unitExponent, hone, Int.ofNat_zero, Int.sub_zero, Int.natCast_nonneg, if_true,
    Int.toNat_natCast, decide_eq_true hlower]
  omega

theorem ofRatio_one : ofRatio n 1 = (n.log2 + 1022) * twoTo 52 + n * twoTo (52 - n.log2) := by
  have hlog := log2_le hpos hsmall
  obtain ⟨-, hupper⟩ := shifted_bounds hpos hsmall
  have hmantissa : (if 0 ≤ (n.log2 : Int) - 52 then nearest n (1 * twoTo ((n.log2 : Int) - 52).toNat)
      else nearest (n * twoTo (-((n.log2 : Int) - 52)).toNat) 1) = n * twoTo (52 - n.log2) := by
    split
    · next hle =>
      have htop : n.log2 = 52 := by omega
      rw [htop]
      exact (nearest_one n).trans (Nat.mul_one n).symm
    · rw [nearest_one]
      congr 2
      omega
  have hexponent : ((n.log2 : Int) - 52 + 1074).toNat = n.log2 + 1022 := by omega
  rw [ofRatio, if_neg hpos, unitExponent_one hpos hsmall]
  simp only [hmantissa, hexponent]
  refine Nat.min_eq_left ?_
  rw [infinite]
  have hscale : (n.log2 + 1022) * twoTo 52 ≤ 1074 * twoTo 52 := Nat.mul_le_mul_right _ (by omega)
  omega

theorem fraction_ofRatio_one : fraction (ofRatio n 1) = (n * twoTo (52 - n.log2), twoTo (52 - n.log2)) := by
  have hlog := log2_le hpos hsmall
  obtain ⟨hlower, hupper⟩ := shifted_bounds hpos hsmall
  have hunit := twoTo_pos 52
  have hmagnitude : (n.log2 + 1022) * twoTo 52 + n * twoTo (52 - n.log2) =
      (n * twoTo (52 - n.log2) - twoTo 52) + twoTo 52 * (n.log2 + 1023) := by
    have hnext : (n.log2 + 1023) * twoTo 52 = (n.log2 + 1022) * twoTo 52 + twoTo 52 :=
      Nat.succ_mul (n.log2 + 1022) (twoTo 52)
    rw [Nat.mul_comm (twoTo 52), hnext]
    omega
  have hrest : n * twoTo (52 - n.log2) - twoTo 52 < twoTo 52 := by omega
  have hnormal : ¬(n.log2 + 1022) * twoTo 52 + n * twoTo (52 - n.log2) < twoTo 52 := by omega
  rw [ofRatio_one hpos hsmall, fraction, if_neg hnormal, hmagnitude, Nat.add_mul_div_left _ _ hunit,
    Nat.add_mul_mod_self_left, Nat.div_eq_of_lt hrest, Nat.mod_eq_of_lt hrest, Nat.zero_add,
    Nat.add_sub_cancel' hlower]
  show (if 1075 ≤ n.log2 + 1023 then _ else _) = _
  split
  · next hle =>
    have htop : n.log2 = 52 := by omega
    rw [htop]
    simp [twoTo]
  · rw [show 1075 - (n.log2 + 1023) = 52 - n.log2 by omega]

end

/-- The value of a number is a natural number. -/
def Denotes (x : Binary64) (n : Nat) : Prop :=
  x.negative = false ∧ (fraction x.magnitude).1 = n * (fraction x.magnitude).2

theorem denotes_ofNat {n : Nat} (hsmall : n < twoTo 53) : (ofNat n).Denotes n := by
  refine ⟨rfl, ?_⟩
  rw [ofNat]
  by_cases hpos : n = 0
  · subst hpos
    decide +kernel
  · rw [fraction_ofRatio_one hpos hsmall]

theorem Denotes.unique {x : Binary64} {m n : Nat} (hm : x.Denotes m) (hn : x.Denotes n) : m = n :=
  Nat.eq_of_mul_eq_mul_right (fraction_pos _) (hm.2.symm.trans hn.2)

end Binary64
end JobPipeline
