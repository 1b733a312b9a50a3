import EasyJit.Captured

/-!
# What a wrapper is for

A wrapper has one parameter for each placeholder in use, in the order of the placeholders. It
calls the function with its parameters in the places of the placeholders, and with what was
captured in the other places.
-/

namespace EasyJit

open LLVM Linker

namespace Context

def placeholders (C : Context) : List ℕ := C.argumentMapping.filterMap (·.forwardIdx)

/-- The wrapper's parameter for a placeholder. -/
def wrapperParam (C : Context) (k : ℕ) : ℕ :=
  ((List.range k).filter (· ∈ C.placeholders)).length

/-- No index below the first argument's placeholder is left out while a greater one is used. -/
def FirstGapless (C : Context) : Prop :=
  ∀ k, C.argumentMapping[0]? = some (.forward k) →
    ∀ j ∈ C.placeholders, j < k → ∀ i < j, i ∈ C.placeholders

end Context

/-- The argument that is one parameter. -/
def paramArg (i : ℕ) (ty : Ty) : HighLevelArg := ⟨i, i, [ty], ty.isPointerTy⟩

section

variable {β δ : Type} [BitcodeFormat β δ] (P : Process β δ)

/-- The value for parameter `i`, of type `ty`, in a call of the wrapper in the module `M`. -/
def IsValueFor (M : LModule δ) (C : Context) (i : ℕ) (ty : Ty) (arg : Argument) (v : LValue) :
    Prop :=
  match arg.forwardIdx with
  | some k => v = .arg (C.wrapperParam k)
  | none => ∃ c : LConstant, v = .const c
    ∧ captured P (paramArg i ty) arg = .ok [c.map M.shape?]

/-- The values are those for the parameters of the function, one for each. -/
def CallsWith (M : LModule δ) (C : Context) (params : List Ty) (vs : List LValue) : Prop :=
  vs.length = params.length ∧ ∀ i ty arg v, params[i]? = some ty →
    C.argumentMapping[i]? = some arg → vs[i]? = some v → IsValueFor P M C i ty arg v

/-- Every captured argument is a constant of the type of its parameter. -/
def Materialisable (C : Context) (params : List Ty) : Prop :=
  ∀ i ty arg, params[i]? = some ty → C.argumentMapping[i]? = some arg → arg.forwardIdx = none →
    ∃ t, captured P (paramArg i ty) arg = .ok [t] ∧ t.type = ty

/-- No module that is linked in for an argument defines the name of the function. -/
def KeepsCallee (C : Context) (params : List Ty) (callee : Sym String) : Prop :=
  ∀ src ∈ contextSources P (params.mapIdx paramArg) C, ∀ n ∈ callee.name?,
    src.mod.defines n = false

/-! ## Runs of the wrapper -/

/-- The value in a run of a function with the arguments `a`, in which a constant is what `interp`
says. -/
def Value.eval {σ V : Type} (interp : Constant σ → V) (a : List V) : Value σ → Option V
  | .arg i => a[i]?
  | .const c => some (interp c)

/-- The wrapper can be built, has `N` parameters and calls `F`, which is what it was, with the
run-time value `a[k]` in the place of placeholder `k` and with what was captured elsewhere. -/
def Specialises (M : LModule δ) (callee : Sym String) (F : FunctionInfo) (C : Context) (N : ℕ) :
    Prop :=
  ∃ HLL M' W, HighLevelLayout.ofFunction F = .ok HLL
    ∧ createWrapperFun P M callee F HLL C = .ok (M', W)
    ∧ W.info.params.length = N
    ∧ W.callee = callee ∧ M'.shape? callee = M.shape? callee
    ∧ W.args.length = F.params.length
    ∧ ∀ (V : Type) (interp : Constant (Target δ) → V) (a : List V), a.length = N →
      ∀ (i : ℕ) ty arg v, F.params[i]? = some ty → C.argumentMapping[i]? = some arg →
        W.args[i]? = some v →
        ∃ x, v.eval (fun c => interp (c.map M'.shape?)) a = some x ∧ match arg.forwardIdx with
          | some k => a[k]? = some x
          | none => ∃ t, captured P (paramArg i ty) arg = .ok [t] ∧ x = interp t

/-! ## Struct returns -/

/-- The value in a function that has one more parameter, the first. -/
def Value.shift {σ : Type} : Value σ → Value σ
  | .arg i => .arg (i + 1)
  | .const c => .const c

end

namespace FunctionInfo

/-- The first parameter is the pointer to the struct that is returned. -/
def returnsStruct (F : FunctionInfo) : Bool :=
  match F.params with
  | [] => false
  | ty :: _ => ty.isPointerTy && decide (.structRet ∈ F.getParamAttributes 0)

/-- The other parameters. -/
def restParams (F : FunctionInfo) : List Ty := if F.returnsStruct then F.params.tail else F.params

/-- One argument for each of them, with its index among all parameters. -/
def restArgs (F : FunctionInfo) : List HighLevelArg :=
  F.restParams.mapIdx fun i ty =>
    { paramArg i ty with firstParamIdx := if F.returnsStruct then i + 1 else i }

end FunctionInfo

/-- The layout has one argument for each parameter but the struct return's; and for a context
with as many arguments, the wrapper passes its own struct return first, if there is one, and then
one value for each other parameter. -/
def LaysOut {β δ : Type} [BitcodeFormat β δ] (P : Process β δ) (M : LModule δ)
    (callee : Sym String) (F : FunctionInfo) (C : Context) : Prop :=
  ∃ HLL, HighLevelLayout.ofFunction F = .ok HLL ∧ HLL.args = F.restArgs
    ∧ (C.size = F.restParams.length → ∃ M' W vs, createWrapperFun P M callee F HLL C = .ok (M', W)
      ∧ W.args = (if F.returnsStruct then .arg 0 :: vs.map Value.shift else vs)
      ∧ CallsWith P M' C F.restParams vs)

end EasyJit
