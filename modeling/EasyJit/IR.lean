import EasyJit.Lib.Linker
import EasyJit.Lib.LLVM
import EasyJit.Context

/-!
# The modules of the runtime

What the runtime reads in an LLVM module: the types and attributes of its functions, the calls
and the inline assembly in their bodies, and the `easy::jit` metadata node that names the entry
(`runtime/Utils.cpp`). Constants and values are those the runtime builds.
-/

namespace EasyJit

open LLVM Linker

/-- What ends a call to the runtime other than by its return. -/
inductive Fault
  | BitcodeNotRegistered
  | BitcodeParseError (name : String)
  | CouldNotOpenFile
  | ExecutionEngineCreateError
  /-- LLVM gives up: a symbol that cannot be resolved, an instruction that cannot be selected. -/
  | fatalError
  /-- An assertion of the runtime fails. -/
  | assertion
  /-- An element past the end of an array is read. -/
  | outOfRange
  /-- `*End`, for what `std::find_if` returns when it finds nothing. -/
  | endIterator
  | nullPointer
  /-- A function that was erased is used. -/
  | erased
  /-- A function without a definition is made private: the engine cannot resolve it. -/
  | undefined
  /-- A precondition of an LLVM operation fails: a cast to the wrong class, ill-typed operands. -/
  | illTyped
  | unreachable
  deriving DecidableEq, Repr

inductive Attr
  | structRet
  | other (name : String)
  deriving DecidableEq, Repr

abbrev UnitId := ℕ

/-- Where a function was written: in a translation unit, or by `CreateWrapperFun` for another
function. -/
inductive Origin
  | source (unit : UnitId) (name : String)
  | wrapper (of : Origin)
  deriving DecidableEq, Repr

structure FunctionInfo where
  origin : Origin
  ret : Ty
  params : List Ty
  fnAttrs : List Attr := []
  /-- The attributes of each parameter that has some. -/
  paramAttrs : List (List Attr) := []
  deriving DecidableEq, Repr

namespace FunctionInfo

def functionType (F : FunctionInfo) : Ty := .func F.ret F.params

def getParamAttributes (F : FunctionInfo) (i : ℕ) : List Attr := F.paramAttrs.getD i []

end FunctionInfo

inductive GlobalInfo
  | function (F : FunctionInfo)
  | variable (ty : Ty)
  deriving DecidableEq, Repr

/-- The type of a global value, a pointer. -/
def GlobalInfo.type : GlobalInfo → Ty
  | function F => .ptr F.functionType
  | «variable» ty => .ptr ty

structure InlineAsm where
  functionType : Ty
  asmString : String
  constraints : String
  hasSideEffects : Bool
  isAlignStack : Bool
  intelDialect : Bool
  deriving DecidableEq, Repr

/-- The number a `ConstantFP` is made of, before it is rounded to the type of the constant. -/
inductive FpLiteral
  | ofDouble (x : Double)
  | ofFloat (bits : BitVec 32)
  deriving DecidableEq, Repr

/-- A constant, over the symbols of a module. -/
inductive Constant (σ : Type)
  | int (bits : ℕ) (v : BitVec bits)
  | fp (k : FpKind) (x : FpLiteral)
  | splat (n : ℕ) (c : Constant σ)
  | null (ty : Ty)
  | intToPtr (addr : BitVec 64) (ty : Ty)
  /-- Bytes reinterpreted as a value of a type. -/
  | bytes (bs : List UInt8) (ty : Ty)
  | global (s : σ) (ty : Ty)
  | pointerCast (c : Constant σ) (ty : Ty)
  | struct (ty : Ty) (fields : List (Constant σ))
  | array (ty : Ty) (elems : List (Constant σ))
  /-- The address of a constant global variable of its own. -/
  | address (ty : Ty) (init : Constant σ)

inductive Value (σ : Type)
  /-- A parameter of the function the value is used in. -/
  | arg (i : ℕ)
  | const (c : Constant σ)

inductive Op
  /-- A call of the function that is the first reference, with values over the references. -/
  | call (args : List (Value ℕ))
  | inlineAsm (asm : InlineAsm)
  /-- The initialiser of a variable, over the references. -/
  | initializer (c : Constant ℕ)
  | other (opcode : String)

/-- An operand of a metadata node. -/
inductive MDOperand
  | null
  | string (s : String)
  | other
  deriving DecidableEq, Repr

/-- A metadata node, by its operands. -/
abbrev MDNode := List MDOperand

/-- A module. Its references stand for what `δ` says; those the runtime makes stand for
nothing. -/
abbrev LModule (δ : Type) := Linker.Module String (Option δ) Op GlobalInfo MDNode

abbrev LShape (δ : Type) := Linker.Shape (Option δ) Op GlobalInfo

namespace Constant

variable {σ τ : Type}

def type : Constant σ → Ty
  | int bits _ => .int bits
  | fp k _ => .fp k
  | splat n c => .vector n c.type
  | null ty | intToPtr _ ty | bytes _ ty | global _ ty | pointerCast _ ty | .struct ty _
  | array ty _ => ty
  | address ty _ => .ptr ty

mutual

/-- Every symbol replaced. -/
def map (f : σ → τ) : Constant σ → Constant τ
  | int bits v => int bits v
  | fp k x => fp k x
  | splat n c => splat n (map f c)
  | null ty => null ty
  | intToPtr addr ty => intToPtr addr ty
  | bytes bs ty => bytes bs ty
  | global s ty => global (f s) ty
  | pointerCast c ty => pointerCast (map f c) ty
  | .struct ty fields => .struct ty (mapList f fields)
  | array ty elems => array ty (mapList f elems)
  | address ty init => address ty (map f init)

def mapList (f : σ → τ) : List (Constant σ) → List (Constant τ)
  | [] => []
  | c :: cs => map f c :: mapList f cs

end

mutual

/-- The symbols a constant refers to. -/
def symbols : Constant σ → List σ
  | int _ _ | fp _ _ | null _ | intToPtr _ _ | bytes _ _ => []
  | global s _ => [s]
  | splat _ c | pointerCast c _ | address _ c => symbols c
  | .struct _ cs | array _ cs => symbolsList cs

def symbolsList : List (Constant σ) → List σ
  | [] => []
  | c :: cs => symbols c ++ symbolsList cs

end

end Constant

namespace Value

variable {σ τ : Type}

def map (f : σ → τ) : Value σ → Value τ
  | .arg i => .arg i
  | .const c => .const (c.map f)

def symbols : Value σ → List σ
  | .arg _ => []
  | .const c => c.symbols

end Value

/-! ## `runtime/Utils.cpp` -/

section Utils

variable {δ : Type}

def entryTag : String := "entry"

/-- `dyn_cast<MDString>`, which is not to be given null. -/
def MDOperand.asString : MDOperand → Except Fault (Option String)
  | null => .error .nullPointer
  | string s => .ok (some s)
  | other => .ok none

/-- The loop over the operands of the `easy::jit` node. -/
def findEntry : List MDNode → Except Fault String
  | [] => .error .unreachable
  | [entry, name] :: nodes => do
    match ← entry.asString, ← name.asString with
    | some entry, some name => if entry ≠ entryTag then findEntry nodes else .ok name
    | _, _ => findEntry nodes
  | _ :: nodes => findEntry nodes

def getEntryFunctionName (M : LModule δ) : Except Fault String :=
  match M.metadata with
  | none => .error .nullPointer
  | some nodes => findEntry nodes

/-- The node that marks a function as the entry. -/
def entryNode (name : String) : MDNode := [.string entryTag, .string name]

def markAsEntry (M : LModule δ) (name : String) : LModule δ :=
  { M with metadata := some (M.metadata.getD [] ++ [entryNode name]) }

def unmarkEntry (M : LModule δ) : LModule δ := { M with metadata := none }

/-- What a C string of these characters ends with is not part of it. -/
def cString (s : String) : String := String.ofList (s.toList.takeWhile (· ≠ '\x00'))

def IsCString (s : String) : Prop := '\x00' ∉ s.toList

instance (s : String) : Decidable (IsCString s) := inferInstanceAs (Decidable (_ ∉ _))

/-- `Module::getFunction`: null for a name that is not there, and for a variable. -/
def getFunction (M : LModule δ) (name : String) : Option (Sym String) :=
  match M.getNamedValue name with
  | none => none
  | some s => match M.shape? s with
    | some ⟨.variable _, _⟩ => none
    | _ => some s

end Utils

/-! ## Names -/

section Names

variable {δ : Type}

def usedNames (M : LModule δ) : List String := M.names ++ M.localNames.map (·.1)

/-- LLVM's `ValueSymbolTable::makeUniqueName`, which puts a number behind the name. -/
structure SymbolTable (δ : Type) where
  makeUniqueName : LModule δ → String → String
  numbered : ∀ M base, ∃ k : ℕ, makeUniqueName M base = base ++ "." ++ toString k
  unused : ∀ M base, makeUniqueName M base ∉ usedNames M

/-- The name of a function that was found by `name`: an external one keeps it; a local one does
until an external symbol needs it, and is then given another. -/
def currentName (T : SymbolTable δ) (M : LModule δ) (name : String) : Sym String → String
  | .ext n => n
  | .loc k =>
    if (name, k) ∈ M.localNames ∧ M.mentions name = false then name else T.makeUniqueName M name

end Names

end EasyJit
