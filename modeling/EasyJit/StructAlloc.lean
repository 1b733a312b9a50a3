import EasyJit.Image
import EasyJit.Lib.Walk

/-!
# Structs on the stack

A captured struct is copied to the stack by a store to each of its scalars, which are read from
the buffer one right behind the other. `runtime/pass/InlineParametersHelper.cpp`.
-/

namespace EasyJit

open LLVM Linker

/-- A store to the scalar of an object that the indices lead to. -/
structure FieldStore (σ : Type) where
  gep : List ℕ
  value : Constant σ

structure AllocaInst (σ : Type) where
  allocatedType : Ty
  /-- In the order they are emitted in. -/
  stores : List (FieldStore σ)

/-- What was emitted so far. -/
structure Emitter (δ : Type) where
  S : LinkState δ
  stores : List (FieldStore (Sym String)) := []

/-- `CreateGEP` and `CreateStore`, to a scalar of the type. -/
def Emitter.createStore {δ : Type} (E : Emitter δ) (gep : List ℕ) (ty : Ty)
    (value : Option LConstant) : Except Fault (Emitter δ) :=
  match value with
  | none => .error .nullPointer
  | some value =>
    if value.type = ty then .ok { E with stores := E.stores ++ [⟨gep, value⟩] }
    else .error .illTyped

section Store

variable {β δ : Type} [BitcodeFormat β δ] (T : BitcodeTracker β) (DL : DataLayout)

/-- Stores what the buffer starts with, and gives its size. -/
def storeConstantFromRaw (ty : Ty) (raw : List UInt8) (gep : List ℕ) (E : Emitter δ) :
    Except Fault (Emitter δ × ℕ) := do
  let (fieldValue, size) ← getConstantFromRaw DL ty raw
  .ok (← E.createStore gep ty fieldValue, size)

mutual

/-- Stores the fields of a struct, and gives what was read of the buffer. -/
def storeStructField : Ty → List UInt8 → List ℕ → Emitter δ → Except Fault (Emitter δ × ℕ)
  | .struct _ fields, raw, gep, E => storeFields fields 0 raw gep (E, 0)
  | .array n elem, raw, gep, E =>
    (List.range n).foldlM (fun (st : Emitter δ × ℕ) field => do
      let (E, size) ← storeStructField elem (raw.drop st.2) (gep ++ [field]) st.1
      .ok (E, st.2 + size)) (E, 0)
  | .ptr (.func ret params), raw, gep, E => do
    let p ← readPtr DL raw
    if p ≠ 0 then
      let (S, c) ← linkPointerIfPossible T E.S p (.ptr (.func ret params))
      .ok (← { E with S }.createStore gep (.ptr (.func ret params)) c, 8)
    else storeConstantFromRaw DL (.ptr (.func ret params)) raw gep E
  | ty, raw, gep, E => storeConstantFromRaw DL ty raw gep E

def storeFields : List Ty → ℕ → List UInt8 → List ℕ → Emitter δ × ℕ →
    Except Fault (Emitter δ × ℕ)
  | [], _, _, _, st => .ok st
  | ty :: tys, field, raw, gep, st => do
    let (E, size) ← storeStructField ty (raw.drop st.2) (gep ++ [field]) st.1
    storeFields tys (field + 1) raw gep (E, st.2 + size)

end

/-- A copy of the struct on the stack. -/
def getStructAlloc (S : LinkState δ) (data : List UInt8) (structPtrTy : Ty) :
    Except Fault (LinkState δ × AllocaInst (Sym String)) :=
  match structPtrTy with
  | .ptr structTy => do
    let (E, _) ← storeStructField T DL structTy data [0] { S }
    .ok (E.S, ⟨structTy, E.stores⟩)
  | _ => .error .illTyped

end Store

/-- The bytes that are written by a store to an object of the type; it must be inside of it. -/
def FieldStore.write {σ : Type} (DL : DataLayout) (ty : Ty) (s : FieldStore σ) :
    Except Fault (ℕ × List (Option UInt8)) :=
  match DL.gepAddress ty s.gep with
  | none => .error .illTyped
  | some address =>
    let bs := s.value.storedBytes DL
    if 0 ≤ address ∧ address + bs.length ≤ DL.getTypeAllocSize ty then .ok (address.toNat, bs)
    else .error .outOfRange

/-- The memory of the object after the stores; nothing is known of it before. -/
def AllocaInst.image {σ : Type} (DL : DataLayout) (A : AllocaInst σ) :
    Except Fault (List (Option UInt8)) := do
  let writes ← A.stores.mapM fun s => s.write DL A.allocatedType
  .ok (Memory.storeAll (List.replicate (DL.getTypeAllocSize A.allocatedType) none) writes)

/-- An integer of 8, 16, 32 or 64 bits. -/
def isCapturedInt : Ty → Bool
  | .int w => w ∈ [8, 16, 32, 64]
  | _ => false

/-- The copy of a struct on the stack and the global one hold the same value in every leaf. -/
def SameLeaves {β δ : Type} [BitcodeFormat β δ] (P : Process β δ) (S : LinkState δ) (ty : Ty)
    (data : List UInt8) : Prop :=
  ∃ S₁ A mem S₂ c, getStructAlloc P.tracker P.layout S data (.ptr ty) = .ok (S₁, A)
    ∧ A.image P.layout = .ok mem
    ∧ getGlobalStruct P.tracker P.layout S data (.ptr ty) = .ok (S₂, .address ty c)
    ∧ ∀ l ∈ P.layout.leaves ty 0, ∀ i < P.layout.getTypeStoreSize l.2,
      mem[l.1 + i]? = (c.image P.layout)[l.1 + i]?

end EasyJit
