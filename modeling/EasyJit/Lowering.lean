import EasyJit.Specialise

/-!
# Structs as parameters

A parameter of C++ that is a struct is lowered to any number of parameters of LLVM: a pointer to a
copy, or the registers that its parts are passed in, each of which holds what the struct has from
some offset on.
-/

namespace EasyJit

open LLVM Linker

/-- What a parameter of C++ is lowered to. -/
inductive Lowering
  /-- No struct. -/
  | scalar (ty : Ty)
  /-- A struct that is passed through a pointer to it. -/
  | memory (structTy : Ty)
  /-- A struct that is passed in registers: their types, and the offsets in bytes of the parts of
  the struct that they hold. -/
  | registers (parts : List (Ty × ℕ))
  deriving DecidableEq, Repr

namespace Lowering

def types : Lowering → List Ty
  | scalar ty => [ty]
  | memory structTy => [.ptr structTy]
  | registers parts => parts.map (·.1)

/-- What `set_parameters` records for a parameter: a struct for a struct. -/
def Admits : Lowering → Argument → Prop
  | _, .forward _ => True
  | scalar _, .struct _ => False
  | scalar _, _ => True
  | _, .struct _ => True
  | _, _ => False

end Lowering

/-- The wrapper's first parameter for a placeholder, where the parameters of C++ are lowered to
so many each. -/
def Context.wrapperStart (C : Context) (Ls : List Lowering) (k : ℕ) : ℕ :=
  ((List.range k).map fun j =>
    match (C.argumentMapping.findIdx? (·.forwardIdx = some j)).bind (Ls[·]?) with
    | some L => L.types.length
    | none => 0).sum

section

variable {β δ : Type} [BitcodeFormat β δ] (P : Process β δ)

/-- The part of a struct that a register holds. -/
def partConstant {σ : Type} (DL : DataLayout) (data : List UInt8) (part : Ty × ℕ) :
    Except Fault (Constant σ) := do
  match ← getConstantFromRaw DL part.1 (data.drop part.2) with
  | (none, _) => .error .nullPointer
  | (some c, _) => .ok c

/-- The constants a captured argument is lowered to. -/
def lowered (L : Lowering) (arg : Argument) : Except Fault (List (Constant (Target δ))) :=
  match L, arg with
  | .scalar ty, arg => captured P (paramArg 0 ty) arg
  | .memory structTy, .struct data => do .ok [← structTarget P data (.ptr structTy)]
  | .registers parts, .struct data => parts.mapM (partConstant P.layout data)
  | _, _ => .error .illTyped

/-- The values for one parameter of C++ in a call of the wrapper in the module `M`. -/
def AreValuesFor (M : LModule δ) (C : Context) (Ls : List Lowering) (x : Lowering × Argument)
    (vs : List LValue) : Prop :=
  match x.2.forwardIdx with
  | some k => vs = (List.range x.1.types.length).map fun j => .arg (C.wrapperStart Ls k + j)
  | none => ∃ cs : List LConstant, vs = cs.map .const
    ∧ lowered P x.1 x.2 = .ok (cs.map (Constant.map M.shape?))

/-- The layout has one argument for each parameter of C++, with the types it is lowered to, and
the values for all of them are those that `GetInlineArgs` produces. -/
def Groups (M : LModule δ) (F : FunctionInfo) (Ls : List Lowering) (C : Context) : Prop :=
  ∃ HLL newHLL S vss, HighLevelLayout.ofFunction F = .ok HLL
    ∧ HLL.args.map (·.types) = Ls.map (·.types)
    ∧ getNewLayout C HLL = .ok newHLL
    ∧ getInlineArgs P C HLL newHLL ⟨M, []⟩ = .ok (S, vss.flatten)
    ∧ List.Forall₂ (AreValuesFor P S.mod C Ls) (Ls.zip C.argumentMapping) vss

/-- A captured argument that one register holds: a scalar or a struct behind a pointer that is a
constant, or a struct in a register of no pointer type that starts with the part for it. -/
def FitsRegister (L : Lowering) (arg : Argument) : Prop :=
  match L, arg with
  | .scalar ty, arg => ∃ ts, captured P (paramArg 0 ty) arg = .ok ts
  | .memory structTy, .struct data => ∃ t, structTarget P data (.ptr structTy) = .ok t
  | .registers parts, .struct data => ∀ part ∈ parts, part.1.isPointerTy = false
    ∧ ∃ t : Constant (Target δ), partConstant P.layout data part = .ok t
      ∧ partConstant P.layout data (part.1, 0) = .ok t
  | _, _ => True

end

end EasyJit
