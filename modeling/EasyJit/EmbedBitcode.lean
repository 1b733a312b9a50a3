import EasyJit.EmbedMeaning
import EasyJit.RegisterBitcode

/-!
# What the pass adds to a module

For each object that is exposed, the compiler pass adds a constant with the bitcode of its embedded
module and one with its name; and once, a table with the names and the addresses of the local
variables. A static initialiser hands them to `easy_register`. `pass/Easy.cpp`.
-/

namespace EasyJit.Embed

open LLVM

/-- What a constant of the host program refers to. -/
inductive HostSym (ν : Type)
  /-- A global value of the module. -/
  | value (V : ν)
  /-- A constant that the pass has added. -/
  | added (index : ℕ)
  deriving DecidableEq

/-- A private constant, by its initialiser. -/
structure AddedGlobal (ν : Type) where
  index : ℕ
  name : String
  init : Constant (HostSym ν)

/-- The address of the constant. -/
def AddedGlobal.ref {ν : Type} (g : AddedGlobal ν) : Constant (HostSym ν) :=
  .global (.added g.index) (.ptr g.init.type)

/-- A call to `easy_register`. -/
structure RegisterCall (ν : Type) where
  fptr : Constant (HostSym ν)
  name : Constant (HostSym ν)
  globals : Constant (HostSym ν)
  bitcode : Constant (HostSym ν)
  bitcodeLen : BitVec 64

def i8PtrTy : Ty := .ptr (.int 8)

/-- A packed struct of a name and an address. -/
def entryTy : Ty := .struct true [i8PtrTy, i8PtrTy]

/-- The bytes of a name. -/
def utf8 (s : String) : List UInt8 := s.toList.flatMap String.utf8EncodeChar

section

variable {ν : Type}

/-- `ConstantDataArray::getString`, with the zero that ends it. -/
def getString (bs : List UInt8) : Constant (HostSym ν) :=
  .bytes (bs ++ [0]) (.array (bs.length + 1) (.int 8))

def addGlobal (added : List (AddedGlobal ν)) (name : String) (init : Constant (HostSym ν)) :
    List (AddedGlobal ν) × AddedGlobal ν :=
  let g := ⟨added.length, name, init⟩
  (added ++ [g], g)

def getStringGlobal (added : List (AddedGlobal ν)) (name : String) :
    List (AddedGlobal ν) × AddedGlobal ν :=
  addGlobal added (name ++ "_name") (getString (utf8 name))

/-- `ConstantExpr::getPointerCast`, which leaves a constant of the type as it is. -/
def getPointerCast (c : Constant (HostSym ν)) (ty : Ty) : Constant (HostSym ν) :=
  if c.type = ty then c else .pointerCast c ty

/-! ## The names of the module -/

namespace ModuleGraph

variable (M : ModuleGraph ν)

/-- Empty for a value without a name. -/
def getName (V : ν) : String := ((M.kind V).data?.map (·.name)).getD ""

def usedNames : List String := M.nodes.filterMap fun V => (M.kind V).data?.map (·.name)

/-- The name, or the first number that makes it one that no value has. -/
def uniqueName (base : String) : String :=
  if base ∉ M.usedNames then base
  else (((List.range (M.usedNames.length + 1)).map fun k => base ++ "." ++ toString (k + 1)).find?
    (· ∉ M.usedNames)).getD base

def getNamedValue (name : String) : Option ν :=
  if name = "" then none
  else M.nodes.find? fun V => (M.kind V).data?.any fun data => data.name = name

/-- Names are C strings, and a symbol table has one value for each. -/
structure WellNamed : Prop where
  cString : ∀ V data, (M.kind V).data? = some data → IsCString data.name
  unique : ∀ U V data data', (M.kind U).data? = some data → (M.kind V).data? = some data' →
    data.name = data'.name → data.name ≠ "" → U = V

end ModuleGraph

def Node.setName (name : String) : Node ν → Node ν
  | function data attrs body operands => function { data with name := name } attrs body operands
  | globalVariable data initializer => globalVariable { data with name := name } initializer
  | globalAlias data aliasee => globalAlias { data with name := name } aliasee
  | globalIFunc data resolver => globalIFunc { data with name := name } resolver
  | node => node

def Node.isLocalVariable : Node ν → Bool
  | globalVariable data _ => data.linkage.isLocal
  | _ => false

/-- The variables with local linkage. -/
def collectLocalGlobals (M : ModuleGraph ν) : List ν :=
  M.nodes.filter fun GV => (M.kind GV).isLocalVariable

variable [DecidableEq ν]

def nameGlobal (name : String) (M : ModuleGraph ν) (GV : ν) : ModuleGraph ν :=
  if M.getName GV = "" then M.setKind GV ((M.kind GV).setName (M.uniqueName name)) else M

def nameGlobals (M : ModuleGraph ν) (Globals : List ν) (name : String) : ModuleGraph ν :=
  Globals.foldl (nameGlobal name) M

/-! ## The constants -/

variable {δ : Type} (L : Reading ν δ) (M : ModuleGraph ν)

/-- One turn of the loop over the local variables. -/
def addEntry (st : List (AddedGlobal ν) × List (Constant (HostSym ν))) (GV : ν) :
    List (AddedGlobal ν) × List (Constant (HostSym ν)) :=
  let (added, Name) := getStringGlobal st.1 (M.getName GV)
  let NameCast := getPointerCast Name.ref i8PtrTy
  let GVCast := getPointerCast (.global (.value GV) (L.info GV (M.kind GV)).type) i8PtrTy
  (added, st.2 ++ [.struct entryTy [NameCast, GVCast]])

/-- The table of the local variables, which a null entry ends. -/
def getGlobalMapping (added : List (AddedGlobal ν)) (Globals : List ν) :
    List (AddedGlobal ν) × AddedGlobal ν :=
  let (added, Entries) := Globals.foldl (addEntry L M) (added, [])
  let Entries := Entries ++ [.null entryTy]
  addGlobal added "global_mapping" (.array (.array Entries.length entryTy) Entries)

section

variable [BitcodeFormat (List UInt8) δ]

def writeModuleToGlobal (added : List (AddedGlobal ν)) (Embed : LModule δ) (name : String) :
    List (AddedGlobal ν) × AddedGlobal ν :=
  addGlobal added name (getString (BitcodeFormat.write Embed))

def embedBitcode (passes : Passes ν) (added : List (AddedGlobal ν)) (GO : ν) :
    Except String (List (AddedGlobal ν) × AddedGlobal ν) :=
  match M.getNamedValue (M.getName GO) with
  | none => .error "global value with that name exists"
  | some FEmbed => do
    let Embed ← cleanModule M passes FEmbed
    .ok (writeModuleToGlobal added (Embed.toModule L) (M.getName FEmbed ++ "_bitcode"))

/-- A constant for each object. -/
def embedBitcodes (passes : Passes ν) : List ν → List (AddedGlobal ν) →
    Except String (List (AddedGlobal ν) × List (AddedGlobal ν))
  | [], added => .ok (added, [])
  | GO :: Objs, added => do
    let (added, g) ← embedBitcode L M passes added GO
    let (added, gs) ← embedBitcodes passes Objs added
    .ok (added, g :: gs)

end

/-! ## The static initialiser -/

/-- The elements of an array. -/
def getNumElements : Ty → ℕ
  | .array n _ => n
  | _ => 0

/-- One turn of the loop over the objects. -/
def addCall (GlobalMapping : AddedGlobal ν) (st : List (AddedGlobal ν) × List (RegisterCall ν))
    (x : ν × AddedGlobal ν) : List (AddedGlobal ν) × List (RegisterCall ν) :=
  let (added, Name) := getStringGlobal st.1 (M.getName x.1)
  let Size := getNumElements x.2.init.type - 1
  (added, st.2 ++ [{
    fptr := getPointerCast (.global (.value x.1) (L.info x.1 (M.kind x.1)).type) i8PtrTy
    name := getPointerCast Name.ref i8PtrTy
    globals := GlobalMapping.ref
    bitcode := getPointerCast x.2.ref i8PtrTy
    bitcodeLen := BitVec.ofNat 64 Size }])

def registerBitcode (added : List (AddedGlobal ν)) (Objs : List ν)
    (Bitcodes : List (AddedGlobal ν)) (GlobalMapping : AddedGlobal ν) :
    List (AddedGlobal ν) × List (RegisterCall ν) :=
  (Objs.zip Bitcodes).foldl (addCall L M GlobalMapping) (added, [])

/-- The module that is left, what was added to it, and the body of the static initialiser. -/
structure RegisteredModule (ν : Type) where
  graph : ModuleGraph ν
  added : List (AddedGlobal ν)
  ctor : List (RegisterCall ν)

/-- The pass, for the objects that were collected. Nothing for a module in which there are none. -/
def runOnObjects [BitcodeFormat (List UInt8) δ] (passes : Passes ν) (ObjectsToJIT : List ν) :
    Except String (Option (RegisteredModule ν)) :=
  if ObjectsToJIT.isEmpty then .ok none
  else do
    let LocalVariables := collectLocalGlobals M
    let M := nameGlobals M LocalVariables "unnamed_local_global"
    let (added, Bitcode) ← embedBitcodes L M passes ObjectsToJIT []
    let (added, GlobalMapping) := getGlobalMapping L M added LocalVariables
    let (added, ctor) := registerBitcode L M added ObjectsToJIT Bitcode GlobalMapping
    .ok (some ⟨M, added, ctor⟩)

end

end EasyJit.Embed
