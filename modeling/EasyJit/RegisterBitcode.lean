import EasyJit.Captured
import EasyJit.Image
import EasyJit.Lib.Meaning
import EasyJit.MayAliasTracer

/-!
# The objects that are exposed

The compiler pass gives the functions and variables of a module that are to be found at run time
a section of their own: those that an argument of the compiler interface may be, those with a name
that a regular expression matches, and those that were annotated. Then it collects that section.
`pass/Easy.cpp`.
-/

namespace EasyJit

open LLVM Linker

def CI_SECTION : String := "compiler-interface"

def JIT_SECTION : String := "easy-jit"

/-- A module of the host program, in the order of its functions and variables. -/
structure HostModule (ν : Type) extends ValueGraph ν where
  getName : ν → String
  getSection : ν → String
  /-- LLVM's `stripPointerCastsNoFollowAliases`. -/
  stripPointerCasts : ν → ν

section

variable {ν : Type} [DecidableEq ν] (M : HostModule ν)

namespace HostModule

def isFunction (V : ν) : Bool :=
  match M.kind V with
  | .function _ => true
  | _ => false

/-- `global_objects`: the functions, then the variables. -/
def globalObjects : List ν :=
  M.values.filter M.isFunction ++ M.values.filter fun V => (M.kind V).isGlobalVariable

def isDeclaration (GO : ν) : Bool :=
  match M.kind GO with
  | .function isDeclaration => isDeclaration
  | .globalVariable _ initializer => initializer.isNone
  | _ => false

def canExtractBitcode (GO : ν) : Bool := !M.isDeclaration GO

def isConstant (GO : ν) : Bool :=
  match M.kind GO with
  | .globalVariable isConstant _ => isConstant
  | _ => true

/-- The arguments of a call. -/
def callSite (U : ν) : List ν :=
  match M.kind U with
  | .call _ args => args
  | .memcpy _ dest source rest => dest :: source :: rest
  | _ => []

def compilerInterface : List ν :=
  (M.values.filter M.isFunction).filter (M.getSection · = CI_SECTION)

/-- The arguments of the calls that use a function of the compiler interface. -/
def interfaceArguments : List ν :=
  M.compilerInterface.flatMap fun EasyJitFun =>
    (M.users EasyJitFun).flatMap fun U => (M.callSite U).map M.stripPointerCasts

/-- A loop over the global objects that puts some of them into the section. -/
def exposeIf (p : ν → Bool) (getSection : ν → String) : ν → String :=
  M.globalObjects.foldl (fun getSection GO =>
    if p GO then Function.update getSection GO JIT_SECTION else getSection) getSection

def deduceObjectsToJIT (getSection : ν → String) : ν → String :=
  M.interfaceArguments.foldl (fun getSection O =>
    M.exposeIf (fun GO => M.isConstant GO && MayAliasTracer.count M.toValueGraph O GO) getSection)
    getSection

end HostModule

/-- The option `easy-export`, and `llvm::Regex`. -/
structure EasyExport where
  RegexString : String
  match? : String → String → Bool

def EasyExport.isMatch (E : EasyExport) (name : String) : Bool :=
  E.RegexString ≠ "" && E.match? E.RegexString name

def regexFunctionsToJIT (E : EasyExport) (getSection : ν → String) : ν → String :=
  if E.RegexString = "" then getSection
  else M.exposeIf (fun GO => E.match? E.RegexString (M.getName GO)) getSection

/-- One round of the loop that collects the section, and drops it. -/
def collectObject (st : (ν → String) × List ν) (GO : ν) : (ν → String) × List ν :=
  if st.1 GO ≠ JIT_SECTION then st
  else
    let getSection := Function.update st.1 GO ""
    if M.canExtractBitcode GO then (getSection, st.2 ++ [GO]) else (getSection, st.2)

/-- The sections afterwards, and the objects to expose. -/
def collectObjectsToJIT (E : EasyExport) : (ν → String) × List ν :=
  let getSection := M.deduceObjectsToJIT M.getSection
  let getSection := regexFunctionsToJIT M E getSection
  M.globalObjects.foldl (collectObject M) (getSection, [])

end

/-! ## The copy in a module -/

section Copy

variable {δ : Type}

/-- The initialiser of a variable, over the symbols of its module. -/
def getInitializer (d : Def String (Option δ) Op GlobalInfo) :
    Option (Constant (Option (Sym String))) :=
  match d with
  | ⟨.variable _, [⟨.initializer c, refs⟩]⟩ => some (c.map fun i => (refs[i]?).map (·.sym))
  | _ => none

/-- Where the engine puts what a module defines, and the addresses it has for names: those of the
mapping it was given, and those of the process. -/
structure Engine where
  place : Sym String → Ptr
  globals : GlobalMapping
  process : String → Ptr

def Engine.address (J : Engine) (M : LModule δ) : Option (Sym String) → Ptr
  | none => 0
  | some (.loc k) => J.place (.loc k)
  | some (.ext n) =>
    if M.defines n then J.place (.ext n) else (J.globals.lookup n).getD (J.process n)

/-- The bytes of the variable of a module that a pointer is one to. -/
def copyImage (DL : DataLayout) (J : Engine) (M : LModule δ) (c : LConstant) :
    List (Option UInt8) :=
  let init? := (c.symbols.head?.bind M.definition?).bind getInitializer
  (init?.map fun init => init.placedImage DL (J.address M)).getD []

end Copy

/-- The bytes of an object of the host, and of its copy in a module, if one was linked in. -/
structure Cells where
  host : List (Option UInt8)
  copy : Option (List (Option UInt8))

inductive MemoryWrite
  /-- By the host, into its object. -/
  | host (offset : ℕ) (byte : UInt8)
  /-- Through the argument that points to the object. -/
  | argument (offset : ℕ) (byte : UInt8)

namespace Cells

/-- An argument that was linked in points to the copy. -/
def write (m : Cells) : MemoryWrite → Cells
  | .host offset byte => { m with host := m.host.set offset (some byte) }
  | .argument offset byte =>
    match m.copy with
    | some bs => { m with copy := some (bs.set offset (some byte)) }
    | none => { m with host := m.host.set offset (some byte) }

/-- What is read through the argument. -/
def read (m : Cells) : List (Option UInt8) := m.copy.getD m.host

end Cells

/-- In every run, in which a constant is not written, a read through the argument gives what the
object of the host holds, and a write through it reaches that. -/
def Transparent (isConstant : Bool) (host : List (Option UInt8))
    (copy : Option (List (Option UInt8))) : Prop :=
  ∀ ws : List MemoryWrite, (isConstant = true → ws = []) →
    (ws.foldl Cells.write ⟨host, copy⟩).read = (ws.foldl Cells.write ⟨host, copy⟩).host
      ∧ (isConstant = false → ∀ offset byte,
        ((ws.foldl Cells.write ⟨host, copy⟩).write (.argument offset byte)).host
          = (ws.foldl Cells.write ⟨host, copy⟩).host.set offset (some byte))

section Expose

variable {ν : Type} [DecidableEq ν] (M : HostModule ν) (E : EasyExport) (init : ν → Constant ν)

/-- Just the objects that are exposed are registered for their addresses, under their names, and
for a variable a module that defines it by its initialiser. -/
structure TracksObjects {β δ : Type} [BitcodeFormat β δ] (addr : ν → Ptr)
    (T : BitcodeTracker β) : Prop where
  registered : ∀ X ∈ M.globalObjects,
    T.hasGlobalMapping (addr X) = decide (X ∈ (collectObjectsToJIT M E).2)
  name : ∀ X ∈ M.globalObjects, ∀ name globals,
    T.getNameAndGlobalMapping (addr X) = .ok (name, globals) → name = M.getName X
  initializer : ∀ X ∈ M.globalObjects, (M.kind X).isGlobalVariable = true →
    ∀ LM : LModule δ, T.getModule (addr X) = .ok LM →
      (LM.definition? (.ext (M.getName X))).bind getInitializer
        = some ((init X).map fun V => some (.ext (M.getName V)))

/-- Only functions and constants are exposed; and where these are registered, an argument that
points to a variable is transparent, whatever else is linked in then, wherever the engine puts it,
and whatever mapping it was given: that of the function that is specialised. What the process finds
by a name goes with where its objects are. -/
def OnlyImmutable (DL : DataLayout) (process : (ν → Ptr) → String → Ptr) : Prop :=
  (∀ X ∈ (collectObjectsToJIT M E).2, M.isConstant X = true)
    ∧ ∀ {β δ : Type} [BitcodeFormat β δ] (T : BitcodeTracker β) (addr : ν → Ptr),
      TracksObjects (δ := δ) M E init addr T →
      ∀ X ∈ M.globalObjects, (M.kind X).isGlobalVariable = true →
      ∀ (S S' : LinkState δ) c ptrTy, linkPointerIfPossible T S (addr X) ptrTy = .ok (S', c) →
      ∀ (srcs : List (LSource δ)) (J : Engine), J.process = process addr →
        Transparent (M.isConstant X) ((init X).placedImage DL addr)
          (c.map (copyImage DL J (S'.mod.linkAll srcs)))

end Expose

end EasyJit
