import EasyJit.HighLevelLayout
import EasyJit.InlineParametersHelper

/-!
# The pass that inlines the parameters

`CreateWrapperFun` builds a function that has the placeholders as parameters and calls the
original one with them and with constants for the captured arguments. Functions that arguments
refer to are linked into the module on the way. `runtime/pass/InlineParameters.cpp`.
-/

namespace EasyJit

open LLVM Linker

abbrev LValue := Value (Sym String)

section

variable {β δ : Type} [BitcodeFormat β δ] (P : Process β δ)

/-- `Types_[0]`. -/
def firstType (arg : HighLevelArg) : Except Fault Ty :=
  match arg.types with
  | [] => .error .outOfRange
  | ty :: _ => .ok ty

/-- A struct that is passed by value, as many values. -/
def structValues {σ : Type} (DL : DataLayout) (data : List UInt8) :
    List Ty → ℕ → Except Fault (List (Constant σ))
  | [], _ => .ok []
  | fieldTy :: tys, rawOffset => do
    match ← getConstantFromRaw DL fieldTy (data.drop rawOffset) with
    | (none, _) => .error .nullPointer
    | (some fieldValue, rawSize) =>
      .ok (fieldValue :: (← structValues DL data tys (rawOffset + rawSize)))

def cloneModule (M : LModule δ) : Option (LModule δ) :=
  BitcodeFormat.parse (BitcodeFormat.write M)

/-- Links the module of a compiled function in, and gives its entry. -/
def linkModuleArgument (S : LinkState δ) (functionModule : LModule δ) :
    Except Fault (LinkState δ × LConstant) := do
  let functionName ← getEntryFunctionName functionModule
  match cloneModule functionModule with
  | none => .error .assertion
  | some LM =>
    let S := S.linkModules (unmarkEntry LM)
    match getFunction S.mod functionName with
    | none => .error .nullPointer
    | some s => match S.mod.shape? s with
      | some ⟨info, _⟩ =>
        let (M, s') := setPrivate S.mod functionName s
        .ok (⟨M, S.linked⟩, .global s' info.type)
      | none => .error .undefined

/-- One round of the loop of `GetInlineArgs`. -/
def getInlineArg (FHLL wrapperHLL : HighLevelLayout) (argInF : HighLevelArg) (arg : Argument)
    (S : LinkState δ) : Except Fault (LinkState δ × List LValue) :=
  match arg with
  | .forward _ => do .ok (S, ← getForwardArgs argInF FHLL wrapperHLL)
  | .int _ | .float _ => do
    match ← getScalarArgument arg (← firstType argInF) with
    | none => .error .nullPointer
    | some c => .ok (S, [.const c])
  | .ptr p => do
    let ptrTy ← firstType argInF
    let ptrVal ← getScalarArgument arg ptrTy
    let (S, linkedPtr) ← linkPointerIfPossible P.tracker S p ptrTy
    match linkedPtr.or ptrVal with
    | none => .error .nullPointer
    | some c => .ok (S, [.const c])
  | .struct data =>
    if argInF.structByPointer then do
      let (S, c) ← getGlobalStruct P.tracker P.layout S data (← firstType argInF)
      .ok (S, [.const c])
    else do .ok (S, (← structValues P.layout data argInF.types 0).map .const)
  | .module fn =>
    if argInF.types.length ≠ 1 then .error .assertion
    else do
      let (S, c) ← linkModuleArgument S (P.modules fn).mod
      .ok (S, [.const c])

/-- The rounds of the loop that are left, with the `FHLL.Args_` they read. -/
def getInlineArgsFrom (FHLL wrapperHLL : HighLevelLayout) :
    List HighLevelArg → List Argument → LinkState δ → Except Fault (LinkState δ × List LValue)
  | _, [], S => .ok (S, [])
  | [], _ :: _, _ => .error .outOfRange
  | argInF :: argsInF, arg :: args, S => do
    let (S, vs) ← getInlineArg P FHLL wrapperHLL argInF arg S
    let (S, ws) ← getInlineArgsFrom FHLL wrapperHLL argsInF args S
    .ok (S, vs ++ ws)

def getInlineArgs (C : Context) (FHLL wrapperHLL : HighLevelLayout) (S : LinkState δ) :
    Except Fault (LinkState δ × List LValue) := do
  let (S, vs) ← getInlineArgsFrom P FHLL wrapperHLL FHLL.args C.argumentMapping S
  .ok (S, (if FHLL.structReturn.isSome then [.arg 0] else []) ++ vs)

/-- The attributes of the parameters of the wrapper. -/
def remapParamAttributes (F : FunctionInfo) (HLL newHLL : HighLevelLayout)
    (attrs : List (List Attr)) : Except Fault (List (List Attr)) :=
  newHLL.args.foldlM (fun attrs newArg =>
    match HLL.args[newArg.position]? with
    | none => .error .outOfRange
    | some orgArg =>
      .ok ((List.range newArg.types.length).foldl (fun attrs field =>
        attrs.modify (field + newArg.firstParamIdx)
          (· ++ F.getParamAttributes (field + orgArg.firstParamIdx))) attrs)) attrs

/-- A wrapper: the function it calls, and with what. -/
structure Wrapper where
  info : FunctionInfo
  callee : Sym String
  args : List LValue

/-- The type of a value in a function with the given parameters. -/
def Value.type? {σ : Type} (params : List Ty) : Value σ → Option Ty
  | .arg i => params[i]?
  | .const c => some c.type

/-- `CreateCall(&F, Args)`. -/
def createCall (S : LinkState δ) (wrapperParams : List Ty) (callee : Sym String)
    (F : FunctionInfo) (args : List LValue) : Except Fault Unit :=
  if callee.name?.any fun n => S.linked.any (·.defines n) then .error .erased
  else if args.map (Value.type? wrapperParams) ≠ F.params.map some then .error .illTyped
  else .ok ()

def createWrapperFun (M : LModule δ) (callee : Sym String) (F : FunctionInfo)
    (HLL : HighLevelLayout) (C : Context) : Except Fault (LModule δ × Wrapper) := do
  let newHLL ← getNewLayout C HLL
  let wrapperParams := getWrapperTy newHLL
  let (S, args) ← getInlineArgs P C HLL newHLL ⟨M, []⟩
  createCall S wrapperParams callee F args
  let attrs := List.replicate wrapperParams.length []
  let attrs := if HLL.structReturn.isSome then attrs.modify 0 (· ++ [.structRet]) else attrs
  let attrs ← remapParamAttributes F HLL newHLL attrs
  .ok (S.mod, ⟨⟨.wrapper F.origin, newHLL.ret, wrapperParams, F.fnAttrs, attrs⟩, callee, args⟩)

/-- The function that is called, and what the arguments refer to. -/
def Wrapper.symbols (W : Wrapper) : List (Sym String) := W.callee :: W.args.flatMap Value.symbols

/-- The wrapper as a definition of the module. -/
def Wrapper.toDef (W : Wrapper) : Linker.Def String (Option δ) Op GlobalInfo where
  info := .function W.info
  body := [⟨.call (W.args.map (Value.map W.symbols.idxOf)), W.symbols.map fun s => ⟨s, none⟩⟩,
    ⟨.other "ret", []⟩]

/-- `F->setLinkage(PrivateLinkage)`. -/
def privatiseCallee (M : LModule δ) : Sym String → LModule δ × Sym String
  | .ext n => (M.privatise n, .loc M.next)
  | .loc k => (M, .loc k)

def runOnModule (M : LModule δ) (targetName : String) (C : Context) :
    Except Fault (LModule δ × Wrapper) :=
  match getFunction M targetName with
  | none => .error .assertion
  | some callee => match M.shape? callee with
    | some ⟨.function F, _⟩ => do
      let HLL ← HighLevelLayout.ofFunction F
      let (M, W) ← createWrapperFun P M callee F HLL C
      -- `WrapperFun->takeName(F)`
      let name := currentName P.symbolTable M targetName callee
      let (M, callee) := privatiseCallee M callee
      let W := { W with callee := callee }
      .ok (markAsEntry (M.define name W.toDef) name, W)
    | _ => .error .undefined

end

end EasyJit
