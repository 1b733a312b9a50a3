import EasyJit.EmbedBitcode
import EasyJit.Image
import EasyJit.Lib.Terminated

/-!
# What the static initialisers register

The constants that the pass adds are in the memory of the process, with the addresses of what they
refer to. The tracker keeps pointers to them, and a compilation finds what it reads there.
`runtime/BitcodeTracker.h`, `runtime/BitcodeTracker.cpp` and `runtime/Function.cpp`.
-/

namespace EasyJit

open LLVM Terminated

/-! ## The tracker, with pointers -/

namespace Raw

structure FunctionInfo where
  name : Ptr
  globals : Ptr
  bitcode : Ptr
  bitcodeLen : ℕ

/-- A call to `easy_register`. -/
structure Call extends FunctionInfo where
  fptr : Ptr

structure BitcodeTracker where
  functions : UnorderedMap Ptr FunctionInfo
  nameToAddress : UnorderedMap (List UInt8) Ptr

/-- The text that some bytes are. -/
def nameOfBytes (bs : List UInt8) : String := (String.fromUTF8? bs.toByteArray).getD ""

/-- What is read from memory, which has to be there. -/
def load {α : Type} : Option α → Except Fault α
  | none => .error .outOfRange
  | some a => .ok a

variable (m : ByteMemory)

namespace BitcodeTracker

def empty : BitcodeTracker := ⟨.empty, .empty⟩

/-- `easy_register`. The name is copied to be a key. -/
def registerFunction (T : BitcodeTracker) (c : Call) : Except Fault BitcodeTracker := do
  let Name ← load (m.readCString c.name)
  .ok ⟨(T.functions.emplace c.fptr c.toFunctionInfo).1, (T.nameToAddress.emplace Name c.fptr).1⟩

def hasGlobalMapping (T : BitcodeTracker) (fptr : Ptr) : Bool := (T.functions.lookup fptr).isSome

def getAddress (T : BitcodeTracker) (name : List UInt8) : Ptr :=
  (T.nameToAddress.lookup name).getD 0

def getNameAndGlobalMapping (T : BitcodeTracker) (fptr : Ptr) : Except Fault (Ptr × Ptr) :=
  match T.functions.lookup fptr with
  | none => .error .BitcodeNotRegistered
  | some info => .ok (info.name, info.globals)

/-- `getMemBuffer` asserts that a zero follows the bytes. -/
def getModule {δ : Type} [BitcodeFormat (List UInt8) δ] (T : BitcodeTracker) (fptr : Ptr) :
    Except Fault (LModule δ) :=
  match T.functions.lookup fptr with
  | none => .error .BitcodeNotRegistered
  | some info => do
    let BytecodeStr ← load (m.readBytes info.bitcodeLen info.bitcode)
    let bufEnd ← load (m (info.bitcode + info.bitcodeLen))
    if bufEnd ≠ 0 then .error .assertion
    else match BitcodeFormat.parse BytecodeStr with
      | none => do
        let Name ← load (m.readCString info.name)
        .error (.BitcodeParseError (nameOfBytes Name))
      | some M => .ok M

end BitcodeTracker

def readPtr (p : Ptr) : Option Ptr := (m.readBytes 8 p).map leNat

/-- The entry of a table, which ends with an entry without a name. -/
def globalMapping (GM : Ptr) : Option (Option (List UInt8 × Ptr)) := do
  let Name ← readPtr m GM
  if Name = 0 then some none
  else do
    let name ← m.readCString Name
    let Address ← readPtr m (GM + 8)
    some (some (name, Address))

/-- What `MapGlobals` gives to the engine. -/
def mapGlobals (Globals : Ptr) : Option (List (List UInt8 × Ptr)) :=
  readTerminated (globalMapping m) 16 (2 ^ 64) Globals

/-- What the pointers give is what the other tracker has. -/
structure BitcodeTracker.Refines {δ : Type} [BitcodeFormat (List UInt8) δ] (T : BitcodeTracker)
    (T' : EasyJit.BitcodeTracker (List UInt8)) : Prop where
  hasGlobalMapping : ∀ fptr, T.hasGlobalMapping fptr = T'.hasGlobalMapping fptr
  getAddress : ∀ name, T.getAddress (Embed.utf8 name) = T'.getAddress name
  unregistered : ∀ fptr e, T'.getNameAndGlobalMapping fptr = .error e →
    T.getNameAndGlobalMapping fptr = .error e
  getNameAndGlobalMapping : ∀ fptr name globals,
    T'.getNameAndGlobalMapping fptr = .ok (name, globals) → ∃ Name Globals,
      T.getNameAndGlobalMapping fptr = .ok (Name, Globals)
        ∧ m.readCString Name = some (Embed.utf8 name)
        ∧ mapGlobals m Globals = some (globals.map fun e => (Embed.utf8 e.1, e.2))
  getModule : ∀ fptr, T.getModule (δ := δ) m fptr = T'.getModule fptr

end Raw

/-! ## A program -/

namespace Embed

/-- The two models of a module are of the same functions and variables. -/
structure SameModule {ν : Type} [DecidableEq ν] (host : HostModule ν) (M : ModuleGraph ν) :
    Prop where
  name : ∀ V data, (M.kind V).data? = some data → host.getName V = data.name
  function : ∀ V, host.isFunction V = (M.kind V).isFunction
  globalVariable : ∀ V, (host.kind V).isGlobalVariable = true ↔
    ∃ data initializer, M.kind V = .globalVariable data initializer
  declaration : ∀ V, host.isDeclaration V = (M.kind V).isDeclaration

/-- A translation unit, and where its values and the constants that are added to it are in the
process. -/
structure TranslationUnit (δ : Type) where
  Value : Type
  decEq : DecidableEq Value
  host : HostModule Value
  graph : ModuleGraph Value
  same : SameModule host graph
  reading : Reading Value δ
  passes : Passes Value
  addr : HostSym Value → Ptr

attribute [instance] TranslationUnit.decEq

/-- The arguments of a call, as addresses. -/
def RegisterCall.evaluate {ν : Type} (c : RegisterCall ν) (addr : HostSym ν → Ptr) : Raw.Call where
  fptr := (c.fptr.symbolAddress addr).getD 0
  name := (c.name.symbolAddress addr).getD 0
  globals := (c.globals.symbolAddress addr).getD 0
  bitcode := (c.bitcode.symbolAddress addr).getD 0
  bitcodeLen := c.bitcodeLen.toNat

/-- The constants are in memory where they are to be, and what is defined has an address. -/
structure RegisteredModule.Placed {ν : Type} (DL : DataLayout) (R : RegisteredModule ν)
    (addr : HostSym ν → ℕ) (m : ByteMemory) : Prop where
  image : ∀ g ∈ R.added, ∀ (i : ℕ) (b : UInt8), (g.init.placedImage DL addr)[i]? = some (some b) →
    m (addr (.added g.index) + i) = some b
  fits : ∀ g ∈ R.added, 0 < addr (.added g.index)
    ∧ addr (.added g.index) + DL.getTypeAllocSize g.init.type ≤ 2 ^ 64
  value : ∀ V data, (R.graph.kind V).data? = some data → (R.graph.kind V).isDeclaration = false →
    0 < addr (.value V) ∧ addr (.value V) < 2 ^ 64

namespace TranslationUnit

variable {δ : Type} [BitcodeFormat (List UInt8) δ] (E : EasyExport) (U : TranslationUnit δ)

def objectsToJIT : List U.Value := (collectObjectsToJIT U.host E).2

/-- The compiler pass. -/
def runOnModule : Except String (Option (RegisteredModule U.Value)) :=
  runOnObjects U.reading U.graph U.passes (U.objectsToJIT E)

/-- The calls of the static initialiser. -/
def calls : Except String (List Raw.Call) := do
  match ← U.runOnModule E with
  | none => .ok []
  | some R => .ok (R.ctor.map (·.evaluate U.addr))

/-- The module, with names for its local variables. -/
def named : ModuleGraph U.Value :=
  nameGlobals U.graph (collectLocalGlobals U.graph) "unnamed_local_global"

/-- What is to be registered for an object. -/
def registration (X : U.Value) : Except String (Ptr × FunctionRegistration (List UInt8)) := do
  let Embed ← cleanModule U.named U.passes X
  .ok (U.addr (.value X), {
    name := U.named.getName X
    globals := (collectLocalGlobals U.graph).map fun GV =>
      (U.named.getName GV, U.addr (.value GV))
    bitcode := BitcodeFormat.write (Embed.toModule U.reading) })

def registrations : Except String (List (Ptr × FunctionRegistration (List UInt8))) :=
  (U.objectsToJIT E).mapM U.registration

/-- What is local is defined. -/
structure WellFormed : Prop where
  names : U.graph.WellNamed
  local_defined : ∀ V data, (U.graph.kind V).data? = some data → data.linkage.isLocal = true →
    (U.graph.kind V).isDeclaration = false

end TranslationUnit

section

variable {δ : Type} [BitcodeFormat (List UInt8) δ] (E : EasyExport)

/-- The calls of the static initialisers, which run unit after unit. -/
def programCalls : List (TranslationUnit δ) → Except String (List Raw.Call)
  | [] => .ok []
  | U :: units => do
    let cs ← U.calls E
    .ok (cs ++ (← programCalls units))

/-- What is to be registered for the units. -/
def programRegistrations :
    List (TranslationUnit δ) → Except String (List (Ptr × FunctionRegistration (List UInt8)))
  | [] => .ok []
  | U :: units => do
    let regs ← U.registrations E
    .ok (regs ++ (← programRegistrations units))

/-- The units are well-formed, and what was added to them is in memory. -/
structure Loaded (DL : DataLayout) (units : List (TranslationUnit δ)) (m : ByteMemory) : Prop where
  wellFormed : ∀ U ∈ units, U.WellFormed
  placed : ∀ U ∈ units, ∀ R, U.runOnModule E = .ok (some R) → R.Placed DL U.addr m

end

end Embed

/-- The tracker after some registrations. -/
def BitcodeTracker.registerEach {β : Type} (regs : List (Ptr × FunctionRegistration β)) :
    BitcodeTracker β :=
  regs.foldl (fun T r => T.registerFunction r.1 r.2) .empty

/-- The tracker when the static initialisers of the units have run. -/
def Raw.startup (m : ByteMemory) (calls : List Raw.Call) : Except Fault Raw.BitcodeTracker :=
  calls.foldlM (Raw.BitcodeTracker.registerFunction m) .empty

end EasyJit
