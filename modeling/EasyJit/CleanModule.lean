import EasyJit.Lib.Worklist
import Mathlib.Logic.Function.Basic

/-!
# The embedded module

For each object that is exposed, the compiler pass embeds a copy of the module that is cut down to
what the object refers to: the functions it needs keep their bodies and become private, and
variables become declarations. `pass/Easy.cpp`. LLVM's own passes are parameters; debug information
is left out.
-/

namespace EasyJit.Embed

inductive Linkage
  | externalLinkage | availableExternallyLinkage | linkOnceAnyLinkage | linkOnceODRLinkage
  | weakAnyLinkage | weakODRLinkage | appendingLinkage | internalLinkage | privateLinkage
  | externalWeakLinkage | commonLinkage
  deriving DecidableEq, Repr

inductive Visibility
  | defaultVisibility | hiddenVisibility | protectedVisibility
  deriving DecidableEq, Repr

inductive FnAttr
  | optimizeNone | noInline
  | other (name : String)
  deriving DecidableEq, Repr

/-- What every global value has. -/
structure GlobalData where
  name : String
  linkage : Linkage := .externalLinkage
  visibility : Visibility := .defaultVisibility
  comdat : Option String := none
  deriving DecidableEq, Repr

/-- What a value is made of. -/
inductive Node (ν : Type)
  /-- The instructions of a function, if it is defined, and the operands of its own. -/
  | function (data : GlobalData) (attrs : List FnAttr) (body : Option (List ν))
      (operands : List ν)
  | globalVariable (data : GlobalData) (initializer : Option ν)
  | globalAlias (data : GlobalData) (aliasee : ν)
  | globalIFunc (data : GlobalData) (resolver : ν)
  | constant (operands : List ν)
  | instruction (operands : List ν)
  /-- A parameter, a block, inline assembly or metadata; and what was erased. -/
  | notUser
  deriving DecidableEq, Repr

namespace Node

variable {ν : Type}

/-- `User::operands`. -/
def operands : Node ν → List ν
  | function _ _ _ operands | constant operands | instruction operands => operands
  | globalVariable _ initializer => initializer.toList
  | globalAlias _ aliasee => [aliasee]
  | globalIFunc _ resolver => [resolver]
  | notUser => []

def isUser : Node ν → Bool
  | notUser => false
  | _ => true

def isFunction : Node ν → Bool
  | function _ _ _ _ => true
  | _ => false

/-- A variable or an alias. -/
def isDeleted : Node ν → Bool
  | globalVariable _ _ | globalAlias _ _ => true
  | _ => false

/-- What a global value has; nothing for another value. -/
def data? : Node ν → Option GlobalData
  | function data _ _ _ | globalVariable data _ | globalAlias data _ | globalIFunc data _ =>
    some data
  | _ => none

def setLinkage (linkage : Linkage) : Node ν → Node ν
  | function data attrs body operands =>
    function { data with linkage := linkage } attrs body operands
  | globalVariable data initializer => globalVariable { data with linkage := linkage } initializer
  | globalAlias data aliasee => globalAlias { data with linkage := linkage } aliasee
  | globalIFunc data resolver => globalIFunc { data with linkage := linkage } resolver
  | node => node

end Node

/-- A module, with all values that it is made of. -/
structure ModuleGraph (ν : Type) where
  nodes : List ν
  mem_nodes : ∀ V, V ∈ nodes
  nodup_nodes : nodes.Nodup
  kind : ν → Node ν

section

variable {ν : Type} [DecidableEq ν] (M : ModuleGraph ν)

/-! ## What an entry refers to -/

/-- Each operand that is a user, put on the stack. -/
def pushOperands (ops : List ν) (ToVisit : List ν) : List ν :=
  ops.foldl (fun ToVisit Op => if (M.kind Op).isUser then Op :: ToVisit else ToVisit) ToVisit

/-- What is put on the stack for a user that is seen for the first time. -/
def visitUser (U : ν) (ToVisit : List ν) : List ν :=
  let ToVisit := match M.kind U with
    | .function _ _ body _ => (body.getD []).foldl
      (fun ToVisit I => pushOperands M (M.kind I).operands ToVisit) ToVisit
    | .globalVariable _ (some initializer) => initializer :: ToVisit
    | _ => ToVisit
  pushOperands M (M.kind U).operands ToVisit

/-- The loop of `getReferencedFromEntry`, for a number of turns; the top of the stack is the head
of the list. -/
def referencedLoop : ℕ → List ν → List ν → List ν → Option (List ν)
  | _, [], _, Funs => some Funs
  | 0, _ :: _, _, _ => none
  | n + 1, U :: ToVisit, Visited, Funs =>
    if U ∈ Visited then referencedLoop n ToVisit Visited Funs
    else
      referencedLoop n (visitUser M U ToVisit) (U :: Visited)
        (if (M.kind U).isFunction then Funs ++ [U] else Funs)

/-- As many turns as there are values to take from the stack. -/
def referencedBound : ℕ := 1 + (M.nodes.map fun U => (visitUser M U []).length).sum

def getReferencedFromEntry (Entry : ν) : List ν :=
  (referencedLoop M (referencedBound M) [Entry] [] []).getD []

/-- A value refers to its operands, a function to those of its instructions, and a variable to its
initialiser. -/
inductive References : ν → ν → Prop
  | operand {U V} (h : V ∈ (M.kind U).operands) : References U V
  | instruction {F I V data attrs body operands}
      (h : M.kind F = .function data attrs (some body) operands) (hI : I ∈ body)
      (hV : V ∈ (M.kind I).operands) : References F V
  | initializer {GV init data} (h : M.kind GV = .globalVariable data (some init)) :
      References GV init

/-! ## Cutting a module down -/

def ModuleGraph.setKind (V : ν) (node : Node ν) : ModuleGraph ν :=
  { M with kind := Function.update M.kind V node }

/-- `global_values` -/
def ModuleGraph.globalValues : List ν := M.nodes.filter fun V => (M.kind V).data?.isSome

/-- `getName().startswith("llvm.")` -/
def GlobalData.isReserved (data : GlobalData) : Bool := "llvm.".toList.isPrefixOf data.name.toList

/-- One turn of the loop of `fixLinkages`. -/
def fixLinkage (isEntry : Bool) (GV : Node ν) : Except String (Node ν) :=
  if GV.data?.any GlobalData.isReserved then .ok GV
  else match GV with
  | .globalVariable data _ => .ok (.globalVariable { data with
      comdat := none, visibility := .defaultVisibility, linkage := .externalLinkage } none)
  | .function data attrs body operands =>
    let data := { data with comdat := none }
    if .optimizeNone ∈ attrs then .ok (.function data attrs body operands)
    else
      let attrs := attrs.filter (· ≠ .noInline)
      if isEntry then .ok (.function data attrs body operands)
      else if body.isSome ∧
          (data.visibility ≠ .defaultVisibility ∨ data.linkage ≠ .privateLinkage) then
        .ok (.function { data with
          visibility := .defaultVisibility, linkage := .privateLinkage } attrs body operands)
      else .ok (.function data attrs body operands)
  | _ => .error "Easy::Jit [not yet implemented]: handle aliases, ifuncs."

def fixLinkages (Entry : ν) : Except String (ModuleGraph ν) := do
  let kind ← M.globalValues.foldlM (fun kind GV => do
    let node ← fixLinkage (decide (GV = Entry)) (kind GV)
    .ok (Function.update kind GV node)) M.kind
  .ok { M with kind := kind }

/-- LLVM's passes, in the order in which they are run. -/
structure Passes (ν : Type) where
  gvExtraction : List ν → ModuleGraph ν → ModuleGraph ν
  globalDCE : ModuleGraph ν → ModuleGraph ν
  stripDeadDebugInfo : ModuleGraph ν → ModuleGraph ν
  stripDeadPrototypes : ModuleGraph ν → ModuleGraph ν

def Passes.run (passes : Passes ν) (Referenced : List ν) (M : ModuleGraph ν) : ModuleGraph ν :=
  passes.stripDeadPrototypes
    (passes.stripDeadDebugInfo (passes.globalDCE (passes.gvExtraction Referenced M)))

/-- What the passes keep. -/
def referenced (Entry : ν) : List ν := getReferencedFromEntry M Entry ++ [Entry]

def exposeEntry (Entry : ν) : ModuleGraph ν :=
  if (M.kind Entry).isFunction then
    M.setKind Entry ((M.kind Entry).setLinkage .externalLinkage) else M

/-- `cleanModule`, up to the passes. -/
def pruneModule (passes : Passes ν) (Entry : ν) : ModuleGraph ν :=
  passes.run (referenced M Entry) (exposeEntry M Entry)

def cleanModule (passes : Passes ν) (Entry : ν) : Except String (ModuleGraph ν) :=
  if (M.kind Entry).isFunction then fixLinkages (pruneModule M passes Entry) Entry
  else .ok (pruneModule M passes Entry)

/-! ## What LLVM's passes do -/

/-- Local symbols become external, and those that may be discarded are kept. -/
def Linkage.madeVisible : Linkage → Linkage
  | internalLinkage | privateLinkage => externalLinkage
  | linkOnceAnyLinkage => weakAnyLinkage
  | linkOnceODRLinkage => weakODRLinkage
  | linkage => linkage

def Linkage.isDiscardableIfUnused : Linkage → Bool
  | linkOnceAnyLinkage | linkOnceODRLinkage | internalLinkage | privateLinkage
  | availableExternallyLinkage => true
  | _ => false

/-- The extraction keeps the functions it is given, as symbols that other modules can see, and
deletes the bodies of the others. -/
structure Extracts (pass : List ν → ModuleGraph ν → ModuleGraph ν) : Prop where
  listed : ∀ gvs (M : ModuleGraph ν) F data attrs body operands, F ∈ gvs →
    M.kind F = .function data attrs body operands → ∃ data' operands',
      (pass gvs M).kind F = .function data' attrs body operands' ∧ data'.name = data.name
        ∧ data'.linkage = data.linkage.madeVisible
  unlisted : ∀ gvs (M : ModuleGraph ν) F data attrs body operands, F ∉ gvs →
    (pass gvs M).kind F = .function data attrs body operands → body = none

/-- The pass does nothing but erase values, and no definition that other modules can refer to. -/
structure ErasesUnreferenced (pass : ModuleGraph ν → ModuleGraph ν) : Prop where
  kept_or_erased : ∀ (M : ModuleGraph ν) V, (pass M).kind V = M.kind V ∨ (pass M).kind V = .notUser
  keeps : ∀ (M : ModuleGraph ν) F data attrs body operands,
    M.kind F = .function data attrs (some body) operands →
    data.linkage.isDiscardableIfUnused = false → (pass M).kind F = M.kind F

structure Passes.Documented (passes : Passes ν) : Prop where
  gvExtraction : Extracts passes.gvExtraction
  globalDCE : ErasesUnreferenced passes.globalDCE
  stripDeadDebugInfo : ErasesUnreferenced passes.stripDeadDebugInfo
  stripDeadPrototypes : ErasesUnreferenced passes.stripDeadPrototypes

/-- A listed function that has a body of its own leads to the function, but not through the
initialisers and aliases that the extraction deletes. -/
def Needed (gvs : List ν) (F : ν) : Prop :=
  ∃ R ∈ gvs, (∃ data attrs body operands, M.kind R = .function data attrs (some body) operands
      ∧ data.linkage ≠ .availableExternallyLinkage)
    ∧ Relation.ReflTransGen (fun U V => References M U V ∧ (M.kind U).isDeleted = false) R F

/-- The passes drop the copies of functions of other modules that are not needed, and keep the
others. -/
def Passes.DropsUnneeded (passes : Passes ν) (gvs : List ν) : Prop :=
  ∀ F ∈ gvs, ∀ data attrs body operands, M.kind F = .function data attrs (some body) operands →
    data.linkage = .availableExternallyLinkage →
    ((passes.run gvs M).kind F = .notUser ↔ ¬ Needed M gvs F)

def Linkage.isLocal : Linkage → Bool
  | internalLinkage | privateLinkage => true
  | _ => false

/-- A global value without a definition. -/
def Node.isDeclaration : Node ν → Bool
  | .function _ _ body _ => body.isNone
  | .globalVariable _ initializer => initializer.isNone
  | _ => false

/-- But for symbols of LLVM, variables are external declarations, functions that are defined are
private, and the entry is defined and external. -/
structure ExportsOnlyEntry (Entry : ν) : Prop where
  globalVariables : ∀ GV data initializer, M.kind GV = .globalVariable data initializer →
    data.isReserved = false → initializer = none ∧ data.linkage = .externalLinkage
      ∧ data.visibility = .defaultVisibility
  functions : ∀ F data attrs body operands, F ≠ Entry →
    M.kind F = .function data attrs (some body) operands → data.isReserved = false →
    data.linkage = .privateLinkage ∧ data.visibility = .defaultVisibility
  entry : ∃ data attrs body operands, M.kind Entry = .function data attrs (some body) operands
    ∧ data.linkage = .externalLinkage

/-- Linking can identify a global value of another module, but for symbols of LLVM, only with the
entry, or with a declaration. -/
def LinksOnlyEntry (Entry : ν) : Prop :=
  ∀ V data, (M.kind V).data? = some data → data.isReserved = false → data.linkage.isLocal = false →
    V = Entry ∨ (M.kind V).isDeclaration = true

/-- Whatever else the entry refers to is a function that may be optimised, or a copy of a function
of another module that is not needed. -/
def MayOptimizeReferenced (Entry : ν) : Prop :=
  ∀ F ∈ getReferencedFromEntry M Entry, F ≠ Entry → ∀ data attrs body operands,
    M.kind F = .function data attrs (some body) operands → data.isReserved = false →
    .optimizeNone ∈ attrs →
    data.linkage = .availableExternallyLinkage
      ∧ ¬ Needed (exposeEntry M Entry) (referenced M Entry) F

end

end EasyJit.Embed
