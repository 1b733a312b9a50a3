import Mathlib.Data.BitVec
import Mathlib.Algebra.Order.Ring.Int
import Mathlib.Tactic.Positivity
import Mathlib.Tactic.Zify

/-!
# Two's complement

An integer, cut to some bits, can be cut to fewer bits afterwards; and it is what the bits say, if
it is in their range.
-/

namespace TwosComplement

variable {v w : ℕ} {i : ℤ}

theorem setWidth_ofInt (h : w ≤ v) (i : ℤ) :
    (BitVec.ofInt v i).setWidth w = BitVec.ofInt w i := by
  have hdvd : (2 ^ w : ℤ) ∣ 2 ^ v := pow_dvd_pow 2 h
  have hnonneg (n : ℕ) : 0 ≤ i % (2 ^ n : ℤ) := Int.emod_nonneg i (by positivity)
  apply BitVec.eq_of_toNat_eq
  rw [BitVec.toNat_setWidth, BitVec.toNat_ofInt, BitVec.toNat_ofInt]
  zify
  rw [Int.toNat_of_nonneg (hnonneg v), Int.toNat_of_nonneg (hnonneg w)]
  exact Int.emod_emod_of_dvd i hdvd

/-- Extending with the sign adds bits that are cut off again. -/
theorem setWidth_signExtend (h : w ≤ v) (x : BitVec w) : (x.signExtend v).setWidth w = x := by
  rw [BitVec.signExtend, setWidth_ofInt h, BitVec.ofInt_toInt]

theorem toNat_ofInt_of_range (h : 0 ≤ i) (h' : i < 2 ^ w) : ((BitVec.ofInt w i).toNat : ℤ) = i := by
  have hnonneg : 0 ≤ i % (2 ^ w : ℕ) := Int.emod_nonneg i (by positivity)
  rw [BitVec.toNat_ofInt, Int.toNat_of_nonneg hnonneg]
  exact Int.emod_eq_of_lt h (by exact_mod_cast h')

/-- The low bits, as a number. -/
theorem ofNat_emod (i : ℤ) : BitVec.ofNat w (i % 2 ^ w).toNat = BitVec.ofInt w i := by
  have hnonneg : 0 ≤ i % 2 ^ w := Int.emod_nonneg i (by positivity)
  apply BitVec.eq_of_toNat_eq
  rw [BitVec.toNat_ofNat, BitVec.toNat_ofInt]
  zify
  rw [Int.toNat_of_nonneg hnonneg]
  exact Int.emod_emod_of_dvd i (dvd_refl (2 ^ w))

end TwosComplement
