import EasyJit.Proofs.Image
import EasyJit.Proofs.Param

/-!
# Captured integers

An integer is captured by itself, as 64 bits that are cut to the width of the parameter, or in a
struct, as bytes that are read with the width of the field. Either way it becomes the same constant,
with the value of the integer (`scalar_eq_raw`).
-/

namespace EasyJit

open LLVM Cpp

/-- The integral types of C++ with 8, 16, 32 or 64 bits. -/
structure IntegralType where
  bytes : ℕ
  isSigned : Bool
  bytes_mem : bytes ∈ [1, 2, 4, 8]

namespace IntegralType

variable (T : IntegralType)

def width : ℕ := 8 * T.bytes

/-- The type that it is compiled to. -/
def lower : Ty := .int T.width

def Contains (x : ℤ) : Prop :=
  if T.isSigned then -2 ^ (T.width - 1) ≤ x ∧ x < 2 ^ (T.width - 1) else 0 ≤ x ∧ x < 2 ^ T.width

instance (x : ℤ) : Decidable (T.Contains x) :=
  inferInstanceAs (Decidable (if T.isSigned then _ else _))

/-- The value that bits have. -/
def value (bits : BitVec T.width) : ℤ := if T.isSigned then bits.toInt else bits.toNat

/-- The bytes of a value in memory, the low ones first, those of a negative one in two's
complement. -/
def objectRepresentation (x : ℤ) : List UInt8 := leBytes T.bytes (x % 2 ^ T.width).toNat

variable {T} {x : ℤ}

theorem width_pos : 0 < T.width := by
  have := T.bytes_mem
  unfold width
  simp only [List.mem_cons, List.not_mem_nil, or_false] at this
  omega

theorem bytes_le : T.bytes ≤ 8 := by
  have := T.bytes_mem
  simp only [List.mem_cons, List.not_mem_nil, or_false] at this
  omega

theorem width_mem : 8 * T.bytes ∈ [8, 16, 32, 64] := by
  have := T.bytes_mem
  simp only [List.mem_cons, List.not_mem_nil, or_false] at this ⊢
  omega

/-- The low bits of a value of the type have the value. -/
theorem value_ofInt (h : T.Contains x) : T.value (BitVec.ofInt T.width x) = x := by
  unfold Contains at h
  unfold value
  cases hsigned : T.isSigned with
  | true =>
    rw [hsigned, if_pos rfl] at h
    rw [if_pos rfl]
    exact BitVec.toInt_ofInt_eq_self width_pos h.1 h.2
  | false =>
    rw [hsigned, if_neg Bool.false_ne_true] at h
    rw [if_neg Bool.false_ne_true]
    exact TwosComplement.toNat_ofInt_of_range h.1 h.2

/-- As a parameter. -/
theorem getScalarArgument_ofInt {σ : Type} (x : ℤ) :
    getScalarArgument (σ := σ) (.int (BitVec.ofInt 64 x)) T.lower
      = .ok (some (.int T.width (BitVec.ofInt T.width x))) := by
  have hle : T.width ≤ 64 := by
    have := T.bytes_le
    unfold width
    omega
  simp only [getScalarArgument, lower, constantIntGet, bind, Except.bind,
    BitVec.signExtend_eq_setWidth_of_le _ hle, TwosComplement.setWidth_ofInt hle]

/-- As a field of a struct. -/
theorem getConstantFromRaw_objectRepresentation {σ : Type} (DL : DataLayout) (x : ℤ) :
    getConstantFromRaw (σ := σ) DL T.lower (T.objectRepresentation x)
      = .ok (some (.int T.width (BitVec.ofInt T.width x)), T.bytes) := by
  have hlen : (T.objectRepresentation x).length = T.bytes := length_leBytes _ _
  have hlt : (x % 2 ^ T.width).toNat < 2 ^ (8 * T.bytes) := by
    have hpos : (0 : ℤ) < 2 ^ T.width := by positivity
    have := Int.emod_lt_of_pos x hpos
    have := Int.emod_nonneg x hpos.ne'
    zify
    rw [Int.toNat_of_nonneg this]
    assumption
  rw [lower, width, getConstantFromRaw_int width_mem, intFromRaw_eq bytes_le hlen.ge,
    List.take_of_length_le hlen.le, objectRepresentation, leNat_leBytes hlt]
  congr 4
  exact TwosComplement.ofNat_emod x

end IntegralType

/-- The constant for an integer that is captured as a scalar is the one that is read from its bytes,
and has its value. -/
theorem scalar_eq_raw {τ σ : Type} [Cpp τ] {P : τ} {a : Actual τ} {C C' : Context}
    (T : IntegralType) (DL : DataLayout) {x : ℤ} (hP : category P = .integral)
    (hx : toIntegral a.named P = x) (hT : T.Contains x) (hC : setPlainParam P C a = .ok C') :
    ∃ arg, ∃ c : Constant σ, C'.argumentMapping = C.argumentMapping ++ [arg]
      ∧ getScalarArgument arg T.lower = .ok (some c)
      ∧ getConstantFromRaw DL T.lower (T.objectRepresentation x) = .ok (some c, T.bytes)
      ∧ ∃ bits, c = .int T.width bits ∧ T.value bits = x := by
  rw [setPlainParam_eq] at hC
  obtain ⟨arg, harg, rfl⟩ := Except.map_eq_ok.1 hC
  rw [recordedPlain, hP] at harg
  obtain ⟨-, rfl⟩ := map_initialise_eq_ok.1 harg
  rw [hx]
  exact ⟨_, _, rfl, T.getScalarArgument_ofInt x, T.getConstantFromRaw_objectRepresentation DL x,
    _, rfl, T.value_ofInt hT⟩

section Samples

open Sample

/-- An `int` with the value -1. -/
theorem scalar_eq_raw_minusOne : ∃ C' arg, ∃ c : Constant Empty,
    setPlainParam .int {} (object .int [255, 255, 255, 255]) = .ok C'
      ∧ C'.argumentMapping = [arg] ∧ getScalarArgument arg (.int 32) = .ok (some c)
      ∧ getConstantFromRaw .x86_64 (.int 32) [255, 255, 255, 255] = .ok (some c, 4)
      ∧ ∃ bits : BitVec 32, c = .int 32 bits ∧ bits.toInt = -1 := by
  have hC : setPlainParam .int {} (object .int [255, 255, 255, 255])
    = .ok (({} : Context).setParameterInt (BitVec.ofInt 64 (-1))) := rfl
  obtain ⟨arg, c, h⟩ := scalar_eq_raw ⟨4, true, by decide⟩ .x86_64 (x := -1) rfl (by decide)
    (by decide) hC
  exact ⟨_, arg, c, hC, h⟩

end Samples

end EasyJit
