import EasyJit.Function
import EasyJit.Lib.Decimal
import EasyJit.Param

/-!
# Small processes and programs

Modules that are their own bitcode, registrations of them, processes made of a few of these, and a
few types of a program.
-/

namespace EasyJit

open LLVM Linker

/-- Bitcode that is the module itself. -/
@[reducible] def BitcodeFormat.self (δ : Type) : BitcodeFormat (LModule δ) δ where
  write := id
  parse := some
  parse_write _ := rfl

namespace Sample

variable {δ : Type}

attribute [local instance] BitcodeFormat.self

def function (unit : UnitId) (name : String) (params : List Ty) : FunctionInfo where
  origin := .source unit name
  ret := .void
  params := params

/-- The references of one instruction. -/
def inst (op : Op) (refs : List (String × δ)) : Inst String (Option δ) Op :=
  ⟨op, refs.map fun r => ⟨.ext r.1, some r.2⟩⟩

def define (M : LModule δ) (unit : UnitId) (name : String) (params : List Ty)
    (body : List (Inst String (Option δ) Op)) : LModule δ :=
  M.define name ⟨.function (function unit name params), body⟩

/-- A compiled function that does nothing. -/
def compiled (name : String) : CompiledModule δ where
  mod := markAsEntry (define .empty 0 name [] []) name
  entry := name
  entry_eq := rfl
  function := function 0 name []
  entry_function := by
    simp [markAsEntry, define, Module.define, Module.shape?, Module.shapeIn, Def.shape]

theorem one_ne_null : (1 : Ptr) ≠ 0 := Nat.one_ne_zero

theorem two_ne_null : (2 : Ptr) ≠ 0 := Nat.succ_ne_zero 1

theorem isCString_f : IsCString "f" := by decide

theorem isCString_g : IsCString "g" := by decide

def register (fptr : Ptr) (name : String) (globals : GlobalMapping) (M : LModule δ)
    (hfptr : fptr ≠ 0) (hname : IsCString name) (hdef : M.defines name = true)
    (hmeta : M.metadata = none) :
    Registration (LModule δ) δ where
  fptr := fptr
  info := ⟨name, globals, M⟩
  fptr_ne := hfptr
  name := hname
  defines := by
    rintro _ ⟨⟩
    exact hdef
  metadata := by
    rintro _ ⟨⟩
    exact hmeta

/-- The first number that makes a name no value has. -/
def symbolTable : SymbolTable δ where
  makeUniqueName M base := (((List.range ((usedNames M).length + 1)).map fun k =>
    base ++ "." ++ toString k).find? (· ∉ usedNames M)).getD base
  numbered M base := by
    obtain ⟨k, hk, -⟩ := Decimal.exists_unused (Decimal.append_toString_injective (base ++ "."))
      (usedNames M)
    exact ⟨k, by rw [hk, Option.getD_some]⟩
  unused M base := by
    obtain ⟨k, hk, hnot⟩ := Decimal.exists_unused
      (Decimal.append_toString_injective (base ++ ".")) (usedNames M)
    rwa [hk, Option.getD_some]

def process (regs : List (Registration (LModule δ) δ)) : Process (LModule δ) δ where
  registrations := regs
  layout := .x86_64
  modules _ := compiled "noop"
  symbolTable := symbolTable

/-- No optimisation, and a host on which everything else succeeds. -/
def backend : Backend δ where
  optimise _ M := M
  metadata_optimise _ _ := rfl
  canOpen _ := true
  canCreate _ := true
  canGenerate _ _ _ := true

/-- The one way to take an element out of a list of one. -/
theorem singleton_eq_append_cons {α : Type} {a b : α} {pre post : List α}
    (h : [a] = pre ++ b :: post) : pre = [] ∧ b = a ∧ post = [] := by
  simpa [eq_comm] using List.singleton_eq_append_iff.1 h

/-! ## C++ types -/

/-- Types of a program, with an lvalue reference to a type written as the type. -/
inductive CppType
  | int
  | pointer
  /-- `struct Point { int x, y; }` -/
  | point
  | optLevel
  | placeholder (number : ℕ)
  deriving DecidableEq

/-- The conversions of these types are from each to itself. -/
instance : Cpp CppType where
  isPlaceholder
    | .placeholder number => number
    | _ => 0
  isOption ty := ty = .optLevel
  category
    | .int => .integral
    | .pointer => .pointer
    | _ => .class
  isFunctionWrapper _ := false
  isConst _ := false
  lvalue := id
  convertible ty ty' := ty = ty'
  toIntegral a _ := (BitVec.ofNat 32 (leNat a.bytes)).toInt
  toFloating _ _ := .posZero
  toPointer a _ := leNat a.bytes
  toReference a _ := a.address
  toClass a _ := a.bytes
  specializationIsPossible _ _ := false
  getFunction _ := 0
  option a := .optLevel (leNat (a.bytes.take 4)) (leNat (a.bytes.drop 4))

/-- An object of a type, somewhere in memory. -/
def object (type : CppType) (bytes : List UInt8) : Actual CppType := ⟨type, 4096, bytes⟩

end Sample

end EasyJit
