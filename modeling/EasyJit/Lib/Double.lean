import Mathlib.Data.BitVec

/-!
# IEEE doubles and their equality

A binary64 value is its 64 bits. `==` is the comparison of IEEE 754: a NaN is equal to nothing,
the two zeros are equal to each other, and otherwise equality is equality of the bits
(`beq_iff`). So `==` is symmetric and transitive, but coarser than identity on zeros and finer
on NaNs.
-/

structure Double where
  bits : BitVec 64
  deriving DecidableEq, Repr

namespace Double

/-- The sign bit cleared. -/
def magnitude (x : Double) : ℕ := x.bits.toNat % 2 ^ 63

/-- An exponent of all ones and a fraction that is not zero. -/
def isNaN (x : Double) : Bool := decide (0x7FF0000000000000 < x.magnitude)

def isZero (x : Double) : Bool := decide (x.magnitude = 0)

instance : BEq Double where
  beq x y := !x.isNaN && !y.isNaN && (decide (x = y) || x.isZero && y.isZero)

def posZero : Double := ⟨0⟩

def negZero : Double := ⟨0x8000000000000000⟩

/-- Zeros of opposite sign: the values `==` does not tell apart. -/
def ZeroTwins (x y : Double) : Prop := x.isZero ∧ y.isZero ∧ x ≠ y

instance (x y : Double) : Decidable (ZeroTwins x y) := inferInstanceAs (Decidable (_ ∧ _ ∧ _))

variable {x y z : Double}

theorem not_isNaN_of_isZero (h : x.isZero) : x.isNaN = false := by
  simp only [isZero, decide_eq_true_eq] at h
  simp [isNaN, h]

theorem beq_iff : (x == y) = true ↔ (x = y ∧ x.isNaN = false) ∨ ZeroTwins x y := by
  simp only [BEq.beq, Bool.and_eq_true, Bool.not_eq_true', Bool.or_eq_true, decide_eq_true_eq,
    ZeroTwins]
  constructor
  · rintro ⟨⟨hx, hy⟩, rfl | ⟨hzx, hzy⟩⟩
    · exact .inl ⟨rfl, hx⟩
    · by_cases h : x = y
      · exact .inl ⟨h, hx⟩
      · exact .inr ⟨hzx, hzy, h⟩
  · rintro (⟨rfl, hx⟩ | ⟨hzx, hzy, -⟩)
    · exact ⟨⟨hx, hx⟩, .inl rfl⟩
    · exact ⟨⟨not_isNaN_of_isZero hzx, not_isNaN_of_isZero hzy⟩, .inr ⟨hzx, hzy⟩⟩

instance : PartialEquivBEq Double where
  symm h := by
    rw [beq_iff] at h ⊢
    rcases h with ⟨rfl, hx⟩ | ⟨hx, hy, hne⟩
    · exact .inl ⟨rfl, hx⟩
    · exact .inr ⟨hy, hx, hne.symm⟩
  trans {x y z} h h' := by
    rw [beq_iff] at h h'
    rcases h with ⟨rfl, hx⟩ | ⟨hx, hy, -⟩
    · exact beq_iff.2 h'
    · have hz : z.isZero := by
        rcases h' with ⟨rfl, -⟩ | ⟨-, hz, -⟩
        · exact hy
        · exact hz
      by_cases hxz : x = z
      · exact beq_iff.2 (.inl ⟨hxz, not_isNaN_of_isZero hx⟩)
      · exact beq_iff.2 (.inr ⟨hx, hz, hxz⟩)

end Double
