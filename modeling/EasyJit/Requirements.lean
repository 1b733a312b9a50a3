import EasyJit.Specialise
import EasyJit.Function
import EasyJit.Lib.Target

/-!
# What is asked of a compilation

The bindings of a compiled function are restored when it is deserialised, contexts that are equal
give the same code, and the references of what is linked reach what they are meant to: the
variables of their own translation unit, and the functions they called before.
-/

namespace EasyJit

open LLVM Linker

section

variable {β δ : Type} [BitcodeFormat β δ] (P : Process β δ) (B : Backend δ)

/-! ## Before the context is read -/

/-- The name of a registered function and its module, once the functions it calls are linked
in. -/
def loaded (addr : Ptr) : Except Fault (String × LModule δ) := do
  let (name, _) ← P.tracker.getNameAndGlobalMapping addr
  let M ← P.tracker.getModule addr
  let M ← resolveModule P.tracker M name
  .ok (name, M)

/-- The mapping that is installed, and the module, up to LLVM's own passes. -/
def linked (addr : Ptr) (C : Context) : Except Fault (GlobalMapping × LModule δ) := do
  let (_, globals) ← P.tracker.getNameAndGlobalMapping addr
  let (name, M) ← loaded P addr
  let (M, _) ← runOnModule P (emitCodes M name C) name C
  .ok (globals, M)

/-- The modules linked into the module `LM` of a function: for the functions it calls, then for
the arguments of the context. -/
def linkedIn (LM : LModule δ) (name : String) (C : Context) : List (LSource δ) :=
  let callees := ((getFunction LM name).map (calledNames LM)).getD [] |>.flatMap P.calleeSources
  let M := LM.linkAll callees
  callees ++ match (getFunction M name).bind M.shape? with
    | some ⟨.function F, _⟩ => contextSources P (F.params.mapIdx paramArg) C
    | _ => []

/-! ## Serialising -/

def DefinesFunction (M : LModule δ) (name : String) : Prop :=
  ∃ s F body, getFunction M name = some s ∧ M.shape? s = some ⟨.function F, body⟩

/-- Null is given for a stream that holds no module. Otherwise the function that is given has a
module with an entry node that names it, and that defines it. -/
def DeserializesCleanly (stream : β) : Prop :=
  BitcodeFormat.parse (δ := δ) stream = none ∧ deserialize P B stream = .ok none
    ∨ ∃ f, deserialize P B stream = .ok (some f)
      ∧ (∃ nodes, f.mod.metadata = some nodes ∧ entryNode f.name ∈ nodes)
      ∧ DefinesFunction f.mod f.name

/-- The nodes that are no entry nodes, but those of two operands with null among them. -/
def IsPassedOver (node : MDNode) : Prop :=
  node.length ≠ 2 ∨ .null ∉ node ∧ ∀ name, node ≠ entryNode name

/-- The mapping that was registered first for the address that was registered first for a name. -/
def Process.globalsOf? (name : String) : Option GlobalMapping :=
  (P.registrationOf? name).bind fun r => (P.registration? r.fptr).map (·.info.globals)

/-- An engine can be created for the module. It has a first entry node, and nodes that can be passed
over before that; what its name is as a C string is named by an entry node too, and defined, and
code can be generated for it with the mapping that is registered for the name. -/
def HasDefinedEntry (M : LModule δ) : Prop :=
  B.canCreate M = true ∧ ∃ pre name post, M.metadata = some (pre ++ entryNode name :: post)
    ∧ (∀ node ∈ pre, IsPassedOver node)
    ∧ entryNode (cString name) ∈ pre ++ entryNode name :: post
    ∧ DefinesFunction M (cString name)
    ∧ B.canGenerate (cString name) ((P.globalsOf? name).getD []) M = true

/-! ## Equal contexts -/

/-- The function has a stub in its body. -/
def HasStub (M : LModule δ) (name : String) : Prop :=
  ∃ e ∈ M.defs, getFunction M name = some e.1
    ∧ ∃ i ∈ e.2.body, ∃ asm, i.op = .inlineAsm asm ∧ asm.asmString = stubString

/-- Two compilations of one function consume the same inputs and give the same code. -/
structure SameInputs (addr : Ptr) (C D : Context) : Prop where
  arguments : C.argumentMapping = D.argumentMapping
  levels : C.getOptLevel = D.getOptLevel
  stubs : ∀ name M, loaded P addr = .ok (name, M) → emitCodes M name C = emitCodes M name D
  registers : C.rawBytes.reservedRegs = D.rawBytes.reservedRegs
  code : prepare P B addr C = prepare P B addr D

/-! ## Linking arguments in -/

/-- The functions that a definition calls. -/
def calls (d : Linker.Def String (Option δ) Op GlobalInfo) : List (Sym String) :=
  d.body.filterMap calledFunction

/-- Linking the arguments of the context into the module `M` of the function `callee` captures
nothing: the function is still there and still what it was, every call in it and in what is linked
in reaches what it reached in its own module, and each value for an argument stands for what was
captured. -/
structure CapturesNothing (M : LModule δ) (callee : Sym String) (HLL : HighLevelLayout)
    (C : Context) (S : LinkState δ) (vs : List LValue) : Prop where
  present : ∀ n ∈ callee.name?, ∀ LM ∈ S.linked, LM.defines n = false
  body : S.mod.shape? callee = M.shape? callee
  reach : ∀ X f e, M.Kept (contextSources P HLL.args C) X f e → ∀ s ∈ calls e.2,
    (S.mod.binding (f s)).SameTarget (X.binding s)
  arguments : ∃ vss, vs = (if HLL.structReturn.isSome then [.arg 0] else []) ++ vss.flatten
    ∧ List.Forall₂ (fun x vs => x.2.forwardIdx = none → ∃ cs : List LConstant, vs = cs.map .const
      ∧ captured P x.1 x.2 = .ok (cs.map (Constant.map S.mod.shape?)))
      (HLL.args.zip C.argumentMapping) vss

/-- No source defines the name of the function. Where a call stays, and is of a name that nothing
defines, no source touches the name; and where it is of a name that is defined, the last
definition of it is the one that was called. -/
structure KeepsCalls (M : LModule δ) (callee : Sym String) (srcs : List (LSource δ)) : Prop where
  callee : ∀ src ∈ srcs, ∀ n ∈ callee.name?, src.mod.defines n = false
  own : ∀ e ∈ M.defs, Survives e.1.name? srcs → ∀ s ∈ calls e.2, (M.binding s).Stays srcs
  sources : ∀ pre S post, srcs = pre ++ S :: post → ∀ e ∈ S.mod.defs,
    Survives (Module.privatiseKey S.entry e.1.name?) post → ∀ s ∈ calls e.2,
      (S.mod.binding s).Enters (fun n => definedAfter n (M.defines n) pre) S post

end

/-! ## Local variables -/

/-- A local variable: the translation unit it is in, and its name. -/
abbrev Variable := UnitId × String

/-- The address the engine finds for a reference, when it is given the addresses of the names that
no module defines. -/
def resolve {δ : Type} (globals : GlobalMapping) (b : Binding String (LShape δ)) : Option Ptr :=
  b.declared?.bind (globals.lookup ·)

section

variable {β : Type} [BitcodeFormat β Variable] (P : Process β Variable)

/-- A definition in the module that is registered refers to the variable. -/
def Registration.Refers (r : Registration β Variable) (v : Variable)
    (b : Binding String (LShape Variable)) : Prop :=
  ∃ LM : LModule Variable, BitcodeFormat.parse r.info.bitcode = some LM
    ∧ ∃ key, LM.Binds key (some v) b

/-- Translation units: each registers its functions with one table of its variables, which the
functions refer to by name, as to symbols defined elsewhere. -/
structure Registry where
  unit : Registration β Variable → UnitId
  table : UnitId → GlobalMapping
  mapping : ∀ r ∈ P.registrations, r.info.globals = table (unit r)
  own : ∀ r ∈ P.registrations, ∀ v b, r.Refers v b → v.1 = unit r ∧ b.declared? = some v.2
  listed : ∀ r ∈ P.registrations, ∀ v b, r.Refers v b → ∃ a, (table v.1).lookup v.2 = some a

variable {P} (R : Registry P)

/-- Every reference to a variable resolves to the address that the variable's own unit has for
it. -/
def Registry.Resolves (globals : GlobalMapping) (M : LModule Variable) : Prop :=
  ∀ key v b, M.Binds key (some v) b →
    ∃ a, (R.table v.1).lookup v.2 = some a ∧ resolve globals b = some a

/-- Nothing that is linked into the function's module touches a variable of a reference that
stays in it. A reference of what is linked in is to a name that stays undefined before and after,
and for which the function's table has the address that the variable's own unit has. -/
def Registry.KeepsVariables (addr : Ptr) (C : Context) : Prop :=
  ∀ r, ∀ LM : LModule Variable, P.registration? addr = some r →
    BitcodeFormat.parse r.info.bitcode = some LM →
    (∀ key v b, LM.Binds key (some v) b → Survives key (linkedIn P LM r.info.name C) →
      ∀ S ∈ linkedIn P LM r.info.name C, ¬ S.Touches v.2)
    ∧ ∀ pre S post, linkedIn P LM r.info.name C = pre ++ S :: post →
      ∀ key v b, S.mod.Binds key (some v) b → Survives (Module.privatiseKey S.entry key) post →
        ∃ n a, b.declared? = some n ∧ definedAfter n (LM.defines n) pre = false ∧ S.entry ≠ n
          ∧ (∀ S' ∈ post, ¬ S'.Touches n)
          ∧ (R.table v.1).lookup v.2 = some a ∧ r.info.globals.lookup n = some a

end

end EasyJit
