import EasyJit.Lib.UnorderedMap
import EasyJit.IR

/-!
# The bitcode tracker

The two tables that the static initialisers of the translation units fill through
`easy_register`, and the look-ups of the runtime. `runtime/BitcodeTracker.h` and
`runtime/BitcodeTracker.cpp`.
-/

namespace EasyJit

/-- LLVM's bitcode writer and parser. -/
class BitcodeFormat (β : outParam (Type)) (δ : Type) where
  write : LModule δ → β
  /-- Nothing for bytes that are not the bitcode of a module. -/
  parse : β → Option (LModule δ)
  parse_write : ∀ M, parse (write M) = some M

/-- The name and address of each local variable of a translation unit, without the null entry
that ends the array. -/
abbrev GlobalMapping := List (String × Ptr)

/-- What a translation unit registers for one of its functions. -/
structure FunctionRegistration (β : Type) where
  name : String
  globals : GlobalMapping
  bitcode : β

structure BitcodeTracker (β : Type) where
  functions : UnorderedMap Ptr (FunctionRegistration β)
  nameToAddress : UnorderedMap String Ptr

namespace BitcodeTracker

variable {β δ : Type}

def empty : BitcodeTracker β := ⟨.empty, .empty⟩

def registerFunction (T : BitcodeTracker β) (fptr : Ptr) (info : FunctionRegistration β) :
    BitcodeTracker β where
  functions := (T.functions.emplace fptr info).1
  nameToAddress := (T.nameToAddress.emplace info.name fptr).1

def hasGlobalMapping (T : BitcodeTracker β) (fptr : Ptr) : Bool :=
  (T.functions.lookup fptr).isSome

/-- Null for a name that is not registered. -/
def getAddress (T : BitcodeTracker β) (name : String) : Ptr :=
  (T.nameToAddress.lookup name).getD 0

def getNameAndGlobalMapping (T : BitcodeTracker β) (fptr : Ptr) :
    Except Fault (String × GlobalMapping) :=
  match T.functions.lookup fptr with
  | none => .error .BitcodeNotRegistered
  | some info => .ok (info.name, info.globals)

def getModule [BitcodeFormat β δ] (T : BitcodeTracker β) (fptr : Ptr) :
    Except Fault (LModule δ) :=
  match T.functions.lookup fptr with
  | none => .error .BitcodeNotRegistered
  | some info => match BitcodeFormat.parse info.bitcode with
    | none => .error (.BitcodeParseError info.name)
    | some M => .ok M

end BitcodeTracker

/-- A call to `easy_register`, as the compiler pass puts it into the static initialisers: the
address is that of a function, the name a C string, and the embedded module exports the function
under its name and carries no metadata of the runtime. -/
structure Registration (β δ : Type) [BitcodeFormat β δ] where
  fptr : Ptr
  info : FunctionRegistration β
  fptr_ne : fptr ≠ 0
  name : IsCString info.name
  defines : ∀ M : LModule δ, BitcodeFormat.parse info.bitcode = some M → M.defines info.name = true
  metadata : ∀ M : LModule δ, BitcodeFormat.parse info.bitcode = some M → M.metadata = none

/-- The tracker after a sequence of registrations. -/
def BitcodeTracker.registerAll {β δ : Type} [BitcodeFormat β δ] (regs : List (Registration β δ)) :
    BitcodeTracker β :=
  regs.foldl (fun T r => T.registerFunction r.fptr r.info) .empty

/-- The module a compiled function holds: its metadata names a function it exports. -/
structure CompiledModule (δ : Type) where
  mod : LModule δ
  entry : String
  entry_eq : getEntryFunctionName mod = .ok entry
  function : FunctionInfo
  entry_function : (mod.shape? (.ext entry)).map (·.info) = some (.function function)

/-- What a compilation finds in the process. -/
structure Process (β δ : Type) [BitcodeFormat β δ] where
  registrations : List (Registration β δ)
  layout : LLVM.DataLayout
  /-- The modules of the functions that were compiled before. -/
  modules : ModulePtr → CompiledModule δ
  symbolTable : SymbolTable δ

def Process.tracker {β δ : Type} [BitcodeFormat β δ] (P : Process β δ) : BitcodeTracker β :=
  .registerAll P.registrations

end EasyJit
