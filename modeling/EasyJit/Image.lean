import EasyJit.InlineParametersHelper
import EasyJit.Lib.Leaves
import EasyJit.Lib.Memory

/-!
# Constants in memory

The bytes that a constant of the runtime is stored as, on a little-endian machine: an aggregate is
stored as its scalars, each at its offset, and what lies between them is padding.
-/

namespace EasyJit

open LLVM

/-- The `n` low bytes of a number. -/
def leBytes : ℕ → ℕ → List UInt8
  | 0, _ => []
  | n + 1, v => UInt8.ofNat v :: leBytes n (v / 256)

/-- An exponent of all ones and a fraction that is not zero. -/
def isNaN32 (bits : BitVec 32) : Bool := decide (0x7F800000 < bits.toNat % 2 ^ 31)

/-- The buffer starts with a NaN, read as a value of the type. -/
def startsWithNaN (ty : Ty) (raw : List UInt8) : Bool :=
  match ty with
  | .fp .float => isNaN32 (BitVec.ofNat 32 (leNat (raw.take 4)))
  | .fp .double => Double.isNaN ⟨BitVec.ofNat 64 (leNat (raw.take 8))⟩
  | _ => false

namespace Constant

variable {σ : Type} (DL : DataLayout)

/-- The bytes a scalar is stored as. Those of a NaN, of a rounded number and of the address of a
symbol are not known. -/
def storedBytes : Constant σ → List (Option UInt8)
  | int bits v => (leBytes ((bits + 7) / 8) v.toNat).map some
  | fp .float (.ofFloat bits) =>
    if isNaN32 bits then List.replicate 4 none else (leBytes 4 bits.toNat).map some
  | fp .double (.ofDouble x) =>
    if x.isNaN then List.replicate 8 none else (leBytes 8 x.bits.toNat).map some
  | fp k _ => List.replicate (k.bits / 8) none
  | splat n c => (List.replicate n (storedBytes c)).flatten
  | null ty => List.replicate (DL.getTypeStoreSize ty) (some 0)
  | intToPtr addr _ => (leBytes DL.pointerSize addr.toNat).map some
  | bytes bs _ => bs.map some
  | global _ _ | pointerCast _ _ | address _ _ => List.replicate DL.pointerSize none
  | struct _ _ | array _ _ => []

mutual

/-- The scalars of a constant that is placed at an offset, with their offsets. -/
def leaves : Constant σ → ℕ → List (ℕ × Constant σ)
  | struct (.struct packed fields) cs, o => elementLeaves cs (DL.getElementOffsets packed fields) o
  | array (.array n elem) cs, o =>
    elementLeaves cs ((List.range n).map (· * DL.getTypeAllocSize elem)) o
  | c, o => [(o, c)]

def elementLeaves : List (Constant σ) → List ℕ → ℕ → List (ℕ × Constant σ)
  | c :: cs, offset :: offsets, o => leaves c (o + offset) ++ elementLeaves cs offsets o
  | _, _, _ => []

end

/-- The memory a constant takes up. -/
def image (c : Constant σ) : List (Option UInt8) :=
  Memory.storeAll (List.replicate (DL.getTypeAllocSize c.type) none)
    ((c.leaves DL 0).map fun l => (l.1, l.2.storedBytes DL))

section Placed

variable (addr : σ → Ptr)

/-- The address that a pointer to a symbol is. -/
def symbolAddress : Constant σ → Option Ptr
  | global s _ => some (addr s)
  | pointerCast c _ => symbolAddress c
  | _ => none

/-- The bytes a scalar is stored as, once its symbol has an address. -/
def placedBytes (c : Constant σ) : List (Option UInt8) :=
  match c.symbolAddress addr with
  | some p => (leBytes DL.pointerSize p).map some
  | none => c.storedBytes DL

/-- The memory a constant takes up, once symbols have addresses. -/
def placedImage (c : Constant σ) : List (Option UInt8) :=
  Memory.storeAll (List.replicate (DL.getTypeAllocSize c.type) none)
    ((c.leaves DL 0).map fun l => (l.1, l.2.placedBytes DL addr))

end Placed

/-- It has an address in it: its bytes depend on where symbols are. -/
def Relocated (c : Constant σ) : Prop :=
  ∃ addr addr' : σ → Ptr, c.placedImage DL addr ≠ c.placedImage DL addr'

end Constant

/-- An integer of 8, 16, 32 or 64 bits, a vector of such integers, a `float` or a `double`. -/
def isPlainScalar : Ty → Bool
  | .int w => w ∈ [8, 16, 32, 64]
  | .vector n (.int w) => 0 < n && w ∈ [8, 16, 32, 64]
  | .fp k => k ∈ [.float, .double]
  | _ => false

/-- The types `GetConstantFromRaw` has a constant for. -/
def isDecodable (DL : DataLayout) (ty : Ty) : Bool :=
  match ty with
  | .int w => w ∈ [8, 16, 32, 64]
  | .fp k => k ∈ [.float, .double]
  | .ptr _ => true
  | ty => bitCastable DL ty

end EasyJit
