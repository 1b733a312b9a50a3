import EasyJit.Lib.Double

/-!
# Contexts

What a call to `easy::jit` records: one argument for each parameter of the function, the
optimisation levels, and the raw bytes and reserved registers of `jit_`. `runtime/Context.h` and
`runtime/Context.cpp`.
-/

namespace EasyJit

/-- An address of the process; `0` is the null pointer. -/
abbrev Ptr := ℕ

/-- The address of an LLVM module. `Function::operator==` compares nothing else. -/
abbrev ModulePtr := ℕ

inductive ArgumentKind
  | forward | int | float | ptr | struct | module
  deriving DecidableEq, Repr

inductive Argument
  /-- A placeholder, counted from zero. -/
  | forward (idx : ℕ)
  | int (val : BitVec 64)
  | float (val : Double)
  | ptr (val : Ptr)
  /-- The bytes of a struct. -/
  | struct (data : List UInt8)
  /-- A wrapper, by the module it holds. -/
  | module (fn : ModulePtr)
  deriving DecidableEq, Repr

namespace Argument

def kind : Argument → ArgumentKind
  | .forward _ => .forward
  | .int _ => .int
  | .float _ => .float
  | .ptr _ => .ptr
  | .struct _ => .struct
  | .module _ => .module

/-- Only reached with two arguments of one kind. -/
def compareWithSameType : Argument → Argument → Bool
  | .forward a, .forward b => a == b
  | .int a, .int b => a == b
  | .float a, .float b => a == b
  | .ptr a, .ptr b => a == b
  | .struct a, .struct b => a == b
  | .module a, .module b => a == b
  | _, _ => false

instance : BEq Argument where
  beq a b := decide (a.kind = b.kind) && a.compareWithSameType b

/-- The placeholder an argument is, if it is one. -/
def forwardIdx : Argument → Option ℕ
  | .forward k => some k
  | _ => none

end Argument

structure RawBytes where
  bytes : List UInt8 := []
  reservedRegs : List String := []
  deriving DecidableEq, Repr

structure Context where
  argumentMapping : List Argument := []
  optLevel : ℕ := 2
  optSize : ℕ := 0
  debugFile : String := ""
  argumentLayout : List Ptr := []
  rawBytes : RawBytes := {}
  deriving DecidableEq, Repr

namespace Context

def setArg (C : Context) (a : Argument) : Context :=
  { C with argumentMapping := C.argumentMapping ++ [a] }

def setParameterIndex (C : Context) (idx : ℕ) : Context := C.setArg (.forward idx)

def setParameterInt (C : Context) (val : BitVec 64) : Context := C.setArg (.int val)

def setParameterFloat (C : Context) (val : Double) : Context := C.setArg (.float val)

def setParameterPointer (C : Context) (val : Ptr) : Context := C.setArg (.ptr val)

def setParameterStruct (C : Context) (data : List UInt8) : Context := C.setArg (.struct data)

def setParameterModule (C : Context) (fn : ModulePtr) : Context := C.setArg (.module fn)

def setArgumentLayout (C : Context) (id : Ptr) : Context :=
  { C with argumentLayout := C.argumentLayout ++ [id] }

def setOptLevel (C : Context) (optLevel optSize : ℕ) : Context :=
  { C with optLevel := optLevel, optSize := optSize }

def setRawBytes (C : Context) (raw : RawBytes) : Context := { C with rawBytes := raw }

def setDebugFile (C : Context) (file : String) : Context := { C with debugFile := file }

def getOptLevel (C : Context) : ℕ × ℕ := (C.optLevel, C.optSize)

def size (C : Context) : ℕ := C.argumentMapping.length

/-- The loop of `operator==`, over two mappings of one length. -/
def argsEq : List Argument → List Argument → Bool
  | a :: as, b :: bs => if !(a == b) then false else argsEq as bs
  | _, _ => true

instance : BEq Context where
  beq C D :=
    if C.getOptLevel != D.getOptLevel then false
    else if C.size != D.size then false
    else argsEq C.argumentMapping D.argumentMapping

end Context

end EasyJit
