import EasyJit.Meta

/-!
# Recording the arguments of a call

`easy::jit` records each argument under the parameter it is for, by the category of the parameter's
type, and takes what is left as options. `easy/param.h`, and `get_context_for` of `easy/jit.h`.
The conversions are those of the language: `Cpp` says which there are and what they give.
-/

namespace EasyJit

/-- The types that `set_parameter_helper<false>` tells apart. The integral ones have at most 64
bits. -/
inductive ParamCategory
  | integral | floating | pointer | reference | «class»
  /-- Enumerations, unions and the like. -/
  | other
  deriving DecidableEq, Repr

/-- An argument of a call, a reference to an object. -/
structure Actual (τ : Type) where
  /-- `Args&&`: a reference to an lvalue, or to an rvalue. -/
  type : τ
  address : Ptr
  /-- The object's representation, as many bytes as its own type has. -/
  bytes : List UInt8
  deriving DecidableEq, Repr

/-- The options of `easy/options.h`. -/
inductive JitOption
  | optLevel (optLevel optSize : ℕ)
  | dumpIr (file : String)
  deriving DecidableEq, Repr

def JitOption.handle (C : Context) : JitOption → Context
  | .optLevel level size => C.setOptLevel level size
  | .dumpIr file => C.setDebugFile file

/-- The types of a program, their implicit conversions, and its objects. -/
class Cpp (τ : Type) extends ArgTraits τ where
  category : τ → ParamCategory
  /-- `is_function_wrapper`, which looks through a reference but not through `const`. -/
  isFunctionWrapper : τ → Bool
  isConst : τ → Bool
  /-- The type of a name of the object, an lvalue reference. -/
  lvalue : τ → τ
  /-- `std::is_convertible`. -/
  convertible : τ → τ → Bool
  toIntegral : Actual τ → τ → ℤ
  /-- As a `double`. -/
  toFloating : Actual τ → τ → Double
  toPointer : Actual τ → τ → Ptr
  /-- The address of the object that the reference is bound to. -/
  toReference : Actual τ → τ → Ptr
  /-- The representation of the object that the conversion makes. -/
  toClass : Actual τ → τ → List UInt8
  /-- `function_wrapper_specialization_is_possible`. -/
  specializationIsPossible : τ → τ → Bool
  getFunction : Actual τ → ModulePtr
  option : Actual τ → JitOption

open ArgTraits Cpp

variable {τ : Type} [Cpp τ]

/-- The argument by its name, which is an lvalue whatever the argument is. -/
def Actual.named (a : Actual τ) : Actual τ := { a with type := lvalue a.type }

/-- `set_parameter::is_special`. -/
def isSpecial (a : Actual τ) : Bool := isPlaceholder a.type ≠ 0 || isFunctionWrapper a.type

/-- `Param arg_as_param = arg`. -/
def initialise {α : Type} (P : τ) (a : Actual τ) (value : Actual τ → τ → α) :
    Except CompileError α :=
  if convertible a.type P then .ok (value a P) else .error .noConversion

/-- `set_parameter_helper<true>::set_param`. -/
def setSpecialParam (P : τ) (C : Context) (a : Actual τ) : Except CompileError Context :=
  if isPlaceholder a.type ≠ 0 then .ok (C.setParameterIndex (isPlaceholder a.type - 1))
  else if specializationIsPossible P a.type then .ok (C.setParameterModule (Cpp.getFunction a))
  else .error (.staticAssert "easy::jit composition is not possible. Incompatible types.")

/-- `set_parameter_helper<false>::set_param`. For a reference there is no `std::addressof` to
call, since its result would be a pointer to a reference. -/
def setPlainParam (P : τ) (C : Context) (a : Actual τ) : Except CompileError Context :=
  match category P with
  | .integral => do
    let argAsParam ← initialise P a.named toIntegral
    .ok (C.setParameterInt (BitVec.ofInt 64 argAsParam))
  | .floating => do
    let argAsParam ← initialise P a.named toFloating
    .ok (C.setParameterFloat argAsParam)
  | .pointer => do
    let argAsParam ← initialise P a.named toPointer
    .ok (C.setParameterPointer argAsParam)
  | .reference => .error .noMatchingFunction
  | .class => .ok (C.setParameterStruct a.bytes)
  | .other => .error .noMatchingFunction

def setParam (P : τ) (C : Context) (a : Actual τ) : Except CompileError Context :=
  if isSpecial a then setSpecialParam P C a else setPlainParam P C a

def setOptions (C : Context) : List (Actual τ) → Except CompileError Context
  | [] => .ok C
  | opt :: opts =>
    -- `std::ref` takes no constant
    if isConst opt.type then .error .noMatchingFunction
    else if isOption opt.type then setOptions ((option opt).handle C) opts
    else .error (.staticAssert "An easy::jit option is expected")

def setParameters : List τ → Context → List (Actual τ) → Except CompileError Context
  | [], C, opts => setOptions C opts
  | _ :: _, _, [] => .error .noMatchingFunction
  | P :: PL, C, a :: args => do
    let C' ← setParam P C a
    setParameters PL C' args

def getContextFor (PL : List τ) (args : List (Actual τ)) : Except CompileError Context :=
  if args.length < PL.length then
    .error (.staticAssert "easy::jit: not providing enough argument to actual call")
  else setParameters PL {} args

/-- `get_context_for_`. -/
def getContextForRaw (rawBytes : RawBytes) (PL : List τ) (args : List (Actual τ)) :
    Except CompileError Context :=
  if args.length < PL.length then
    .error (.staticAssert "easy::jit: not providing enough argument to actual call")
  else setParameters PL (Context.setRawBytes {} rawBytes) args

/-- What `easy::jit` needs to compile: the types of the wrapper's parameters, and the context the
call records. -/
def jitCall [DecidableEq τ] (PL : List τ) (args : List (Actual τ)) :
    Except CompileError (List τ × Context) := do
  let params ← Meta.parameterList PL (args.map (·.type))
  let C ← getContextFor PL args
  .ok (params, C)

/-- What the parameter of type `P` receives from the argument in a direct call, if the argument
can be converted. -/
def received (P : τ) (a : Actual τ) : Option Argument :=
  if convertible a.type P then
    match category P with
    | .integral => some (.int (BitVec.ofInt 64 (toIntegral a P)))
    | .floating => some (.float (toFloating a P))
    | .pointer => some (.ptr (toPointer a P))
    | .reference => some (.ptr (toReference a P))
    | .class => some (.struct (toClass a P))
    | .other => none
  else none

end EasyJit
