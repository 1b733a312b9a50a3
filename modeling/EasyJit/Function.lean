import EasyJit.EmitCodes
import EasyJit.InlineParameters

/-!
# Compiling, serialising and deserialising

`Function::Compile` takes the embedded module of a registered function, links in the registered
functions that it calls, runs the passes and gives the module to the execution engine, for which
it installs the addresses of the function's local variables. `deserialize` gives the engine a
module that was compiled before. `runtime/Function.cpp`.
-/

namespace EasyJit

open Linker

/-- The parts of LLVM a compilation ends with. -/
structure Backend (δ : Type) where
  /-- LLVM's own passes, at an optimisation level and a size level. -/
  optimise : ℕ × ℕ → LModule δ → LModule δ
  metadata_optimise : ∀ levels M, (optimise levels M).metadata = M.metadata
  /-- Whether a file can be opened. -/
  canOpen : String → Bool
  /-- Whether an engine can be created for a module. -/
  canCreate : LModule δ → Bool
  /-- Whether code can be generated and linked for the function of a name, where the addresses are
  known for names: all symbols are resolved, and the hook finds a list of registers. -/
  canGenerate : String → GlobalMapping → LModule δ → Bool

/-- A function and the engine that holds it. -/
structure CompiledFunction (δ : Type) where
  mod : LModule δ
  /-- The name the address of the function was looked up by. -/
  name : String
  /-- The addresses that were installed for the names of variables. -/
  globals : GlobalMapping

section

variable {β δ : Type} [BitcodeFormat β δ]

/-! ## Linking the callees -/

def symbolName (M : LModule δ) : Sym String → Option String
  | .ext n => some n
  | .loc k => (M.localNames.find? (·.2 = k)).map (·.1)

/-- `CS.getCalledFunction()`. -/
def calledFunction (i : Inst String (Option δ) Op) : Option (Sym String) :=
  match i.op with
  | .call _ => i.refs.head?.map (·.sym)
  | _ => none

/-- The names of the functions that a function calls. -/
def calledNames (M : LModule δ) (F : Sym String) : List String :=
  ((M.defs.find? (·.1 = F)).map (·.2.body)).getD [] |>.filterMap fun i =>
    (calledFunction i).bind (symbolName M)

def linkCallee (T : BitcodeTracker β) (M : LModule δ) (name : String) :
    Except Fault (LModule δ) :=
  let ptr := T.getAddress name
  if ptr ≠ 0 then do
    let LM ← T.getModule ptr
    let M := M.link LM
    match M.getNamedValue name with
    | none => .error .nullPointer
    | some s => .ok (setPrivate M name s).1
  else .ok M

def resolveModule (T : BitcodeTracker β) (M : LModule δ) (name : String) :
    Except Fault (LModule δ) :=
  match getFunction M name with
  | none => .error .nullPointer
  | some F => (calledNames M F).foldlM (linkCallee T) M

/-! ## Compiling -/

variable (P : Process β δ) (B : Backend δ)

def optimize (M : LModule δ) (name : String) (C : Context) : Except Fault (LModule δ) := do
  let (M, _) ← runOnModule P (emitCodes M name C) name C
  .ok (B.optimise C.getOptLevel M)

def writeOptimizedToFile (file : String) : Except Fault Unit :=
  if file = "" || B.canOpen file then .ok () else .error .CouldNotOpenFile

def compileAndWrap (name : String) (globals : Option GlobalMapping) (M : LModule δ) :
    Except Fault (CompiledFunction δ) :=
  if B.canCreate M then
    -- `EE->getFunctionAddress(Name)`
    if B.canGenerate name (globals.getD []) M then .ok ⟨M, name, globals.getD []⟩
    else .error .fatalError
  else .error .ExecutionEngineCreateError

/-- What `Compile` gives to code generation. -/
structure CodegenInput (δ : Type) where
  name : String
  globals : GlobalMapping
  mod : LModule δ
  reservedRegs : List String

/-- `Compile`, up to the dump and the code generation. -/
def prepare (addr : Ptr) (C : Context) : Except Fault (CodegenInput δ) := do
  let (name, globals) ← P.tracker.getNameAndGlobalMapping addr
  let M ← P.tracker.getModule addr
  let M ← resolveModule P.tracker M name
  let M ← optimize P B M name C
  .ok ⟨name, globals, M, C.rawBytes.reservedRegs⟩

def compile (addr : Ptr) (C : Context) : Except Fault (CompiledFunction δ) := do
  let I ← prepare P B addr C
  writeOptimizedToFile B C.debugFile
  compileAndWrap B I.name (some I.globals) I.mod

/-! ## Serialising -/

def serialize (W : CompiledFunction δ) : β := BitcodeFormat.write W.mod

/-- Null for a stream that does not hold a module. -/
def deserialize (stream : β) : Except Fault (Option (CompiledFunction δ)) :=
  match BitcodeFormat.parse (δ := δ) stream with
  | none => .ok none
  | some M => do
    let funName ← getEntryFunctionName M
    let origFunPtr := P.tracker.getAddress funName
    let globals ← if origFunPtr ≠ 0 then
        (P.tracker.getNameAndGlobalMapping origFunPtr).map fun r => some r.2
      else .ok none
    .ok (some (← compileAndWrap B (cString funName) globals M))

end

end EasyJit
