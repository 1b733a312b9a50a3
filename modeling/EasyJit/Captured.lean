import EasyJit.InlineParameters

/-!
# What captured arguments stand for

A captured argument, said without the module that is being built: a number, an address, a copy of
a struct, or a function, which is the definition of that function in the module that was
registered or compiled for it. `argSources` are the modules that have to be linked in for an
argument, in the order in which that happens.
-/

namespace EasyJit

open LLVM Linker

abbrev LSource (δ : Type) := Linker.Source String (Option δ) Op GlobalInfo MDNode

/-- What a symbol stands for: the definition a module has for it. -/
abbrev Target (δ : Type) := Option (LShape δ)

namespace Process

variable {β δ : Type} [BitcodeFormat β δ] (P : Process β δ)

/-- The first registration of an address. -/
def registration? (p : Ptr) : Option (Registration β δ) := P.registrations.find? (·.fptr = p)

/-- The first registration of a name. -/
def registrationOf? (n : String) : Option (Registration β δ) :=
  P.registrations.find? (·.info.name = n)

/-- The module registered for an address. -/
def source? (p : Ptr) : Except Fault (Option (LSource δ)) :=
  match P.registration? p with
  | none => .ok none
  | some r => match BitcodeFormat.parse r.info.bitcode with
    | none => .error (.BitcodeParseError r.info.name)
    | some LM => .ok (some ⟨LM, r.info.name⟩)

def pointerSources (p : Ptr) : List (LSource δ) :=
  match P.source? p with
  | .ok (some S) => [S]
  | _ => []

/-- What is linked in for a function that is called, by its name. -/
def calleeSources (name : String) : List (LSource δ) :=
  match P.registrationOf? name with
  | none => []
  | some r => (P.pointerSources r.fptr).map fun S => ⟨S.mod, name⟩

/-- The module of a compiled function, without its mark. -/
def moduleSource (fn : ModulePtr) : LSource δ :=
  ⟨unmarkEntry (P.modules fn).mod, (P.modules fn).entry⟩

end Process

def Argument.IsScalar : Argument → Prop
  | .int _ | .float _ | .ptr _ => True
  | _ => False

/-- A number or an address at a type: an integer modulo a power of two, and for a vector the same
number in each element. -/
def scalarConstant {σ : Type} : Argument → Ty → Except Fault (Constant σ)
  | .int val, .int w => .ok (.int w (BitVec.ofInt w val.toInt))
  | .int val, .vector n (.int w) => .ok (.splat n (.int w (BitVec.ofInt w val.toInt)))
  | .float val, .fp k => .ok (.fp k (.ofDouble val))
  | .float val, .vector n (.fp k) => .ok (.splat n (.fp k (.ofDouble val)))
  | .ptr val, .ptr ty => .ok (.intToPtr (BitVec.ofNat 64 val) (.ptr ty))
  | _, _ => .error .illTyped

section

variable {β δ : Type} [BitcodeFormat β δ] (P : Process β δ)

/-- The entry of a source, as a value for a parameter of type `ptrTy`. -/
def entryTarget (S : LSource δ) (ptrTy : Ty) : Except Fault (Constant (Target δ)) :=
  match S.mod.shape? (.ext S.entry) with
  | some ⟨.variable ty, body⟩ =>
    let c := .global (some ⟨.variable ty, body⟩) (.ptr ty)
    .ok (if .ptr ty ≠ ptrTy then .pointerCast c ptrTy else c)
  | some ⟨.function F, body⟩ =>
    .ok (.global (some ⟨.function F, body⟩) (.ptr F.functionType))
  | none => .error .assertion

/-- What a pointer to a registered function stands for. -/
def linkTarget (p : Ptr) (ptrTy : Ty) : Except Fault (Option (Constant (Target δ))) := do
  match ← P.source? p with
  | none => .ok none
  | some S => .ok (some (← entryTarget S ptrTy))

mutual

/-- The pointers to functions in a struct, but for the null ones, in the order in which the
functions are linked in, with the types of the fields that hold them. -/
def structPointers (DL : DataLayout) : Ty → List UInt8 → Except Fault (List (Ptr × Ty))
  | .struct packed fields, raw => fieldPointers DL fields (DL.getElementOffsets packed fields) raw
  | .array n elem, raw => do
    let ps ← (List.range n).mapM fun field =>
      structPointers DL elem (raw.drop (DL.getTypeAllocSize elem * field))
    .ok ps.flatten
  | .ptr (.func ret params), raw => do
    let p ← readPtr DL raw
    .ok (if p ≠ 0 then [(p, .ptr (.func ret params))] else [])
  | .ptr _, _ => .ok []
  | ty, raw => do
    let _ ← getConstantFromRaw (σ := Empty) DL ty raw
    .ok []

def fieldPointers (DL : DataLayout) : List Ty → List ℕ → List UInt8 →
    Except Fault (List (Ptr × Ty))
  | ty :: tys, offset :: offsets, raw => do
    let ps ← structPointers DL ty (raw.drop offset)
    .ok (ps ++ (← fieldPointers DL tys offsets raw))
  | _, _, _ => .ok []

end

/-- What the pointers of a struct stand for, the last one first. -/
def structTargets : List (Ptr × Ty) → Funcs (Target δ) → Except Fault (Funcs (Target δ))
  | [], funcs => .ok funcs
  | (p, ty) :: ps, funcs => do
    let c ← linkTarget P p ty
    structTargets ps ((p, c) :: funcs)

def structTarget (data : List UInt8) (structPtrTy : Ty) : Except Fault (Constant (Target δ)) :=
  match structPtrTy with
  | .ptr structTy => do
    let ps ← structPointers P.layout structTy data
    let funcs ← structTargets P ps []
    match ← storeStructFieldAsGlobal P.layout funcs.lookup structTy data with
    | none => .error .illTyped
    | some c => if c.type = structTy then .ok (.address structTy c) else .error .illTyped
  | _ => .error .illTyped

/-- The constants a captured argument is passed as. -/
def captured (argInF : HighLevelArg) (arg : Argument) : Except Fault (List (Constant (Target δ))) :=
  match arg with
  | .forward _ => .ok []
  | .int _ | .float _ => do .ok [← scalarConstant arg (← firstType argInF)]
  | .ptr p => do
    let ptrTy ← firstType argInF
    let ptrVal ← scalarConstant arg ptrTy
    .ok [(← linkTarget P p ptrTy).getD ptrVal]
  | .struct data =>
    if argInF.structByPointer then do .ok [← structTarget P data (← firstType argInF)]
    else structValues P.layout data argInF.types 0
  | .module fn =>
    if argInF.types.length ≠ 1 then .error .assertion
    else do .ok [← entryTarget (P.moduleSource fn) (.ptr (P.modules fn).function.functionType)]

/-- The modules linked in for an argument. -/
def argSources (argInF : HighLevelArg) (arg : Argument) : List (LSource δ) :=
  match arg with
  | .ptr p => P.pointerSources p
  | .struct data =>
    match argInF.structByPointer, argInF.types with
    | true, .ptr structTy :: _ =>
      match structPointers P.layout structTy data with
      | .ok ps => ps.flatMap fun p => P.pointerSources p.1
      | .error _ => []
    | _, _ => []
  | .module fn => [P.moduleSource fn]
  | _ => []

/-- The modules linked in for the arguments of a context. -/
def contextSources (args : List HighLevelArg) (C : Context) : List (LSource δ) :=
  (args.zip C.argumentMapping).flatMap fun x => argSources P x.1 x.2

end

end EasyJit
