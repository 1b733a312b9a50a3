import Mathlib.Algebra.Group.Nat.Defs
import Mathlib.Data.List.Basic
import Mathlib.Data.Nat.Log

/-!
# LLVM types and their layout

The types of LLVM values, and how a data layout places them in memory: the size of a type in
bits, its ABI alignment in bytes, and the offsets of the fields of a struct.
-/

namespace LLVM

inductive FpKind
  | half | float | double | x86_fp80 | fp128 | ppc_fp128
  deriving DecidableEq, Repr

inductive Ty
  | void
  | int (bits : ℕ)
  | fp (k : FpKind)
  | ptr (pointee : Ty)
  | vector (n : ℕ) (elem : Ty)
  | array (n : ℕ) (elem : Ty)
  | struct (packed : Bool) (fields : List Ty)
  | func (ret : Ty) (params : List Ty)
  deriving Repr

namespace Ty

mutual

def beq : Ty → Ty → Bool
  | .void, .void => true
  | .int a, .int b => a == b
  | .fp j, .fp k => j == k
  | .ptr s, .ptr t => beq s t
  | .vector m s, .vector n t => m == n && beq s t
  | .array m s, .array n t => m == n && beq s t
  | .struct p ss, .struct q ts => p == q && beqList ss ts
  | .func s ss, .func t ts => beq s t && beqList ss ts
  | _, _ => false

def beqList : List Ty → List Ty → Bool
  | [], [] => true
  | s :: ss, t :: ts => beq s t && beqList ss ts
  | _, _ => false

end

mutual

theorem beq_iff : ∀ s t : Ty, beq s t = true ↔ s = t
  | .void, t => by cases t <;> simp [beq]
  | .int a, t => by cases t <;> simp [beq]
  | .fp k, t => by cases t <;> simp [beq]
  | .ptr s, t => by cases t <;> simp [beq, beq_iff s]
  | .vector n s, t => by cases t <;> simp [beq, beq_iff s]
  | .array n s, t => by cases t <;> simp [beq, beq_iff s]
  | .struct p ss, t => by cases t <;> simp [beq, beqList_iff ss]
  | .func s ss, t => by cases t <;> simp [beq, beq_iff s, beqList_iff ss]

theorem beqList_iff : ∀ ss ts : List Ty, beqList ss ts = true ↔ ss = ts
  | [], ts => by cases ts <;> simp [beqList]
  | s :: ss, ts => by cases ts <;> simp [beqList, beq_iff s, beqList_iff ss]

end

instance : DecidableEq Ty := fun s t => decidable_of_iff _ (beq_iff s t)

def isPointerTy : Ty → Bool
  | .ptr _ => true
  | _ => false

def isFunctionTy : Ty → Bool
  | .func _ _ => true
  | _ => false

end Ty

def FpKind.bits : FpKind → ℕ
  | .half => 16
  | .float => 32
  | .double => 64
  | .x86_fp80 => 80
  | .fp128 | .ppc_fp128 => 128

/-- Sizes and alignments are in bytes. -/
structure DataLayout where
  pointerSize : ℕ
  /-- The alignment of an integer of so many bits. -/
  intAlign : ℕ → ℕ
  fpAlign : FpKind → ℕ
  /-- The alignment of a vector of so many bits. -/
  vectorAlign : ℕ → ℕ

namespace DataLayout

def alignTo (n align : ℕ) : ℕ := (n + align - 1) / align * align

/-- The size in bytes an object of so many bits takes up in an array. -/
def allocBytes (bits align : ℕ) : ℕ := alignTo ((bits + 7) / 8) align

/-- The offsets of fields of the given sizes in bits and alignments, the first one placed at `o`
or after it, and the end of the last. -/
def placeFields (packed : Bool) : ℕ → List (ℕ × ℕ) → List ℕ × ℕ
  | o, [] => ([], o)
  | o, (bits, align) :: fields =>
    let start := if packed then o else alignTo o align
    let rest := placeFields packed (start + allocBytes bits align) fields
    (start :: rest.1, rest.2)

def structAlign (packed : Bool) (fields : List (ℕ × ℕ)) : ℕ :=
  if packed then 1 else fields.foldl (fun a f => max a f.2) 1

variable (DL : DataLayout)

mutual

/-- The size of a type in bits, and its alignment. -/
def measure : Ty → ℕ × ℕ
  | .void => (0, 1)
  | .int w => (w, DL.intAlign w)
  | .fp k => (k.bits, DL.fpAlign k)
  | .ptr _ => (8 * DL.pointerSize, DL.pointerSize)
  | .vector n t => (n * (measure t).1, DL.vectorAlign (n * (measure t).1))
  | .array n t => (8 * (n * allocBytes (measure t).1 (measure t).2), (measure t).2)
  | .struct packed fields =>
    let ms := measureFields fields
    let align := structAlign packed ms
    (8 * alignTo (placeFields packed 0 ms).2 align, align)
  | .func _ _ => (0, 1)

def measureFields : List Ty → List (ℕ × ℕ)
  | [] => []
  | t :: ts => measure t :: measureFields ts

end

def getTypeSizeInBits (t : Ty) : ℕ := (DL.measure t).1

def getTypeStoreSize (t : Ty) : ℕ := (DL.getTypeSizeInBits t + 7) / 8

def getTypeAllocSize (t : Ty) : ℕ := allocBytes (DL.measure t).1 (DL.measure t).2

/-- The byte offsets of the fields of a struct. -/
def getElementOffsets (packed : Bool) (fields : List Ty) : List ℕ :=
  (placeFields packed 0 (DL.measureFields fields)).1

/-- The layout of the System V ABI on x86-64. -/
def x86_64 : DataLayout where
  pointerSize := 8
  intAlign w := if w ≤ 8 then 1 else if w ≤ 16 then 2 else if w ≤ 32 then 4 else 8
  fpAlign
    | .half => 2
    | .float => 4
    | .double => 8
    | .x86_fp80 | .fp128 | .ppc_fp128 => 16
  vectorAlign w := 2 ^ Nat.clog 2 ((w + 7) / 8)

end DataLayout

end LLVM
