import EasyJit.IR

/-!
# Layouts

`HighLevelLayout` groups the parameters of a function by the arguments they come from. The layout
of the wrapper is computed from the one of the function it calls, and a placeholder's parameters
are found in it by the position of the argument they were taken from.
`runtime/pass/InlineParametersHelper.cpp` and `runtime/pass/InlineParameters.cpp`.
-/

namespace EasyJit

open LLVM

structure HighLevelArg where
  position : ℕ := 0
  firstParamIdx : ℕ := 0
  types : List Ty := []
  structByPointer : Bool := false
  deriving DecidableEq, Repr

structure HighLevelLayout where
  structReturn : Option Ty
  args : List HighLevelArg
  ret : Ty
  deriving DecidableEq, Repr

/-- `F.arg_begin()->hasStructRetAttr()`, which reads the first parameter. -/
def hasStructRetAttr (F : FunctionInfo) : Except Fault Bool :=
  match F.params with
  | [] => .error .outOfRange
  | ty :: _ => .ok (ty.isPointerTy && decide (.structRet ∈ F.getParamAttributes 0))

namespace HighLevelLayout

/-- `n` more rounds of the constructor's loop. -/
def layoutArgs (params : List Ty) : ℕ → ℕ → ℕ → Except Fault (List HighLevelArg)
  | 0, _, _ => .ok []
  | n + 1, argIdx, paramIdx => match params[paramIdx]? with
    | none => .error .outOfRange
    | some ty => do
      let rest ← layoutArgs params n (argIdx + 1) (paramIdx + 1)
      .ok (⟨argIdx, paramIdx, [ty], ty.isPointerTy⟩ :: rest)

/-- The constructor. -/
def ofFunction (F : FunctionInfo) : Except Fault HighLevelLayout := do
  let sret ← hasStructRetAttr F
  let args ← layoutArgs F.params F.params.length 0 (if sret then 1 else 0)
  .ok ⟨if sret then F.params[0]? else none, args, F.ret⟩

end HighLevelLayout

/-- One more than the last placeholder. -/
def numNewArgs (C : Context) : ℕ :=
  C.argumentMapping.foldl (fun n a => match a.forwardIdx with
    | some k => max n (k + 1)
    | none => n) 0

/-- Each argument of the function is put in the place of its placeholder, unless the placeholder
was seen before. -/
def placeForwarded : List Argument → List HighLevelArg → List ℕ → List HighLevelArg →
    List HighLevelArg
  | a :: as, arg :: args, visited, new =>
    match a.forwardIdx with
    | none => placeForwarded as args visited new
    | some k =>
      if k ∈ visited then placeForwarded as args visited new
      else placeForwarded as args (k :: visited) (new.set k arg)
  | _, _, _, new => new

def setFirstParamIdx : ℕ → List HighLevelArg → List HighLevelArg
  | _, [] => []
  | paramIdx, arg :: args =>
    { arg with firstParamIdx := paramIdx } :: setFirstParamIdx (paramIdx + arg.types.length) args

def getNewLayout (C : Context) (HLL : HighLevelLayout) : Except Fault HighLevelLayout :=
  if C.size ≠ HLL.args.length then .error .assertion
  else
    let new := List.replicate (numNewArgs C) ({} : HighLevelArg)
    .ok { HLL with args := setFirstParamIdx 0 (placeForwarded C.argumentMapping HLL.args [] new) }

/-- The parameters of the wrapper; it returns what the function returns. -/
def getWrapperTy (HLL : HighLevelLayout) : List Ty :=
  HLL.structReturn.toList ++ HLL.args.flatMap (·.types)

/-- The wrapper's parameters for an argument of the function that is a placeholder. -/
def getForwardArgs {σ : Type} (argInF : HighLevelArg) (FHLL wrapperHLL : HighLevelLayout) :
    Except Fault (List (Value σ)) :=
  match wrapperHLL.args.find? (·.position = argInF.position) with
  | none => .error .endIterator
  | some argInWrapper =>
    .ok ((List.range argInF.types.length).map fun j =>
      .arg (argInWrapper.firstParamIdx + j + if FHLL.structReturn.isSome then 1 else 0))

end EasyJit
