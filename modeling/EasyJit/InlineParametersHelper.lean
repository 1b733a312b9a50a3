import EasyJit.BitcodeTracker

/-!
# Constants for captured arguments

How a captured argument becomes a constant of the type of a parameter: scalars, pointers to
registered functions, which are linked in, and the bytes of structs.
`runtime/pass/InlineParametersHelper.cpp`.
-/

namespace EasyJit

open LLVM Linker

abbrev LConstant := Constant (Sym String)

/-! ## Scalars -/

/-- `ConstantInt::get`, of a signed value. -/
def constantIntGet {σ : Type} (ty : Ty) (v : BitVec 64) : Except Fault (Constant σ) :=
  match ty with
  | .int w => .ok (.int w (v.signExtend w))
  | .vector n (.int w) => .ok (.splat n (.int w (v.signExtend w)))
  | _ => .error .illTyped

/-- `ConstantFP::get`. -/
def constantFPGet {σ : Type} (ty : Ty) (x : FpLiteral) : Except Fault (Constant σ) :=
  match ty with
  | .fp k => .ok (.fp k x)
  | .vector n (.fp k) => .ok (.splat n (.fp k x))
  | _ => .error .illTyped

/-- Null for an argument that is not a scalar. -/
def getScalarArgument {σ : Type} (arg : Argument) (ty : Ty) :
    Except Fault (Option (Constant σ)) :=
  match arg with
  | .int val => do .ok (some (← constantIntGet ty val))
  | .float val => do .ok (some (← constantFPGet ty (.ofDouble val)))
  | .ptr val =>
    if ty.isPointerTy then .ok (some (.intToPtr (BitVec.ofNat 64 val) ty)) else .error .illTyped
  | _ => .ok none

/-! ## Linking -/

/-- The module of the wrapper, and the modules that were linked into it so far. A module that
defines the name of an external function of the wrapper's module erases that function. -/
structure LinkState (δ : Type) where
  mod : LModule δ
  linked : List (LModule δ) := []

section Link

variable {β δ : Type} [BitcodeFormat β δ]

/-- `setLinkage(PrivateLinkage)`, for the value `s` that was just found by the name: the external
one, if there is one. -/
def setPrivate (M : LModule δ) (name : String) (s : Sym String) : LModule δ × Sym String :=
  (M.privatise name, match s with
    | .ext _ => .loc M.next
    | .loc k => .loc k)

/-- `Linker::linkModules`, with `OverrideFromSrc`. -/
def LinkState.linkModules (S : LinkState δ) (LM : LModule δ) : LinkState δ :=
  ⟨S.mod.link LM, S.linked ++ [LM]⟩

/-- Links the function in when its address is registered, and gives it; and null otherwise. -/
def linkPointerIfPossible (T : BitcodeTracker β) (S : LinkState δ) (ptr : Ptr) (ptrTy : Ty) :
    Except Fault (LinkState δ × Option LConstant) :=
  if T.hasGlobalMapping ptr then do
    let (lname, _) ← T.getNameAndGlobalMapping ptr
    let LM ← T.getModule ptr
    let S := S.linkModules LM
    match S.mod.getNamedValue lname with
    | none => .error .nullPointer
    | some s =>
      let (M, s') := setPrivate S.mod lname s
      match S.mod.shape? s with
      | some ⟨.variable ty, _⟩ =>
        let c := .global s' (.ptr ty)
        .ok (⟨M, S.linked⟩, some (if .ptr ty ≠ ptrTy then .pointerCast c ptrTy else c))
      | some ⟨.function F, _⟩ => .ok (⟨M, S.linked⟩, some (.global s' (.ptr F.functionType)))
      | none => .error .assertion
  else .ok (S, none)

end Link

/-! ## Structs -/

/-- The little-endian number in some bytes. -/
def leNat : List UInt8 → ℕ
  | [] => 0
  | b :: bs => b.toNat + 256 * leNat bs

/-- The first bytes of the buffer. -/
def readRaw (n : ℕ) (raw : List UInt8) : Except Fault (List UInt8) :=
  if n ≤ raw.length then .ok (raw.take n) else .error .outOfRange

/-- An integer in memory, converted to the type of `ConstantInt::get`: a byte is read as unsigned,
and a greater integer as signed. -/
def loadInt (n : ℕ) (bs : List UInt8) : BitVec 64 :=
  if n = 1 then BitVec.ofNat 64 (leNat bs) else (BitVec.ofNat (8 * n) (leNat bs)).signExtend 64

/-- An integer of `n` bytes. -/
def intFromRaw {σ : Type} (n : ℕ) (raw : List UInt8) :
    Except Fault (Option (Constant σ) × ℕ) := do
  let bs ← readRaw n raw
  .ok (some (.int (8 * n) ((loadInt n bs).setWidth (8 * n))), n)

/-- A vector of integers or of floating-point numbers, which so many bytes can be cast to. -/
def bitCastable (DL : DataLayout) (ty : Ty) : Bool :=
  match ty with
  | .vector _ (.int _) | .vector _ (.fp _) =>
    DL.getTypeSizeInBits ty = 8 * DL.getTypeStoreSize ty && DL.getTypeStoreSize ty ≠ 0
  | _ => false

/-- The value of a type that the buffer starts with, and its size; null for the integers and
floating-point numbers it does not know. -/
def getConstantFromRaw {σ : Type} (DL : DataLayout) (ty : Ty) (raw : List UInt8) :
    Except Fault (Option (Constant σ) × ℕ) :=
  match ty with
  | .int 8 => intFromRaw 1 raw
  | .int 16 => intFromRaw 2 raw
  | .int 32 => intFromRaw 4 raw
  | .int 64 => intFromRaw 8 raw
  | .int _ => .ok (none, 0)
  | .fp .float => do
    let bs ← readRaw 4 raw
    .ok (some (.fp .float (.ofFloat (BitVec.ofNat _ (leNat bs)))), 4)
  | .fp .double => do
    let bs ← readRaw 8 raw
    .ok (some (.fp .double (.ofDouble ⟨BitVec.ofNat _ (leNat bs)⟩)), 8)
  | .fp _ => .ok (none, 0)
  | ty => do
    let bs ← readRaw (DL.getTypeStoreSize ty) raw
    if ty.isPointerTy || bitCastable DL ty then
      .ok (some (.bytes bs ty), DL.getTypeStoreSize ty)
    else .error .illTyped

/-- `ConstantStruct::get` and `ConstantArray::get`: the elements must be there, and have the
types of the aggregate's. -/
def checkElements {σ : Type} (tys : List Ty) (cs : List (Option (Constant σ))) :
    Except Fault (List (Constant σ)) :=
  match tys, cs with
  | ty :: tys, some c :: cs => do
    let rest ← checkElements tys cs
    if c.type = ty then .ok (c :: rest) else .error .illTyped
  | _ :: _, none :: _ => .error .nullPointer
  | [], [] => .ok []
  | _, _ => .error .illTyped

section Struct

variable {β δ : Type} [BitcodeFormat β δ] (T : BitcodeTracker β) (DL : DataLayout)

/-- The pointers of function type in a struct, the last one first, with what was linked in for
them. -/
abbrev Funcs (σ : Type) := List (Ptr × Option (Constant σ))

/-- `Funcs[p]`. -/
def Funcs.lookup {σ : Type} (funcs : Funcs σ) (p : Ptr) : Option (Constant σ) :=
  ((funcs.find? (·.1 = p)).map (·.2)).join

/-- A pointer in the buffer. -/
def readPtr (raw : List UInt8) : Except Fault Ptr := do
  let bs ← readRaw DL.pointerSize raw
  .ok (leNat bs)

mutual

/-- Links in the functions that a struct points to. -/
def storeStructFieldPrepare : Ty → List UInt8 → LinkState δ × Funcs (Sym String) →
    Except Fault (LinkState δ × Funcs (Sym String))
  | .struct packed fields, raw, st =>
    prepareFields fields (DL.getElementOffsets packed fields) raw st
  | .array n elem, raw, st =>
    (List.range n).foldlM (fun st field =>
      storeStructFieldPrepare elem (raw.drop (DL.getTypeAllocSize elem * field)) st) st
  | .ptr (.func ret params), raw, st => do
    let p ← readPtr DL raw
    if p ≠ 0 then
      let (S, c) ← linkPointerIfPossible T st.1 p (.ptr (.func ret params))
      .ok (S, (p, c) :: st.2)
    else .ok st
  | .ptr _, _, st => .ok st
  | ty, raw, st => do
    let _ ← getConstantFromRaw (σ := Sym String) DL ty raw
    .ok st

def prepareFields : List Ty → List ℕ → List UInt8 → LinkState δ × Funcs (Sym String) →
    Except Fault (LinkState δ × Funcs (Sym String))
  | ty :: tys, offset :: offsets, raw, st => do
    let st ← storeStructFieldPrepare ty (raw.drop offset) st
    prepareFields tys offsets raw st
  | _, _, _, st => .ok st

end

mutual

/-- The initialiser of a struct, or null. `funcs` is what was linked in for a pointer. -/
def storeStructFieldAsGlobal {σ : Type} (funcs : Ptr → Option (Constant σ)) :
    Ty → List UInt8 → Except Fault (Option (Constant σ))
  | .struct packed fields, raw => do
    let cs ← fieldsAsGlobal funcs fields (DL.getElementOffsets packed fields) raw
    .ok (some (.struct (.struct packed fields) (← checkElements fields cs)))
  | .array n elem, raw => do
    let cs ← (List.range n).mapM fun field =>
      storeStructFieldAsGlobal funcs elem (raw.drop (field * DL.getTypeAllocSize elem))
    .ok (some (.array (.array n elem) (← checkElements (List.replicate n elem) cs)))
  | .ptr (.func ret params), raw => do
    let p ← readPtr DL raw
    .ok (if p ≠ 0 then funcs p else some (.null (.ptr (.func ret params))))
  | .ptr _, raw => do
    -- `ConstantInt::get` of a pointer type
    let _ ← readRaw 8 raw
    .error .illTyped
  | ty, raw => do
    let (c, _) ← getConstantFromRaw DL ty raw
    .ok c

def fieldsAsGlobal {σ : Type} (funcs : Ptr → Option (Constant σ)) :
    List Ty → List ℕ → List UInt8 → Except Fault (List (Option (Constant σ)))
  | ty :: tys, offset :: offsets, raw => do
    let c ← storeStructFieldAsGlobal funcs ty (raw.drop offset)
    .ok (c :: (← fieldsAsGlobal funcs tys offsets raw))
  | _, _, _ => .ok []

end

/-- The address of a constant copy of the struct. -/
def getGlobalStruct (S : LinkState δ) (data : List UInt8) (structPtrTy : Ty) :
    Except Fault (LinkState δ × LConstant) :=
  match structPtrTy with
  | .ptr structTy => do
    let (S, funcs) ← storeStructFieldPrepare T DL structTy data (S, [])
    match ← storeStructFieldAsGlobal DL funcs.lookup structTy data with
    | none => .error .illTyped
    | some c =>
      -- `new GlobalVariable`
      if c.type = structTy then .ok (S, .address structTy c) else .error .illTyped
  | _ => .error .illTyped

end Struct

end EasyJit
