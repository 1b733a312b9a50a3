import EasyJit.Lib.Traverse

/-!
# The alias tracer

The values of a module, with their operands, and the search for the functions and variables that a
value may be: through the values it is loaded from, and through what is stored into the memory
that it may point to. `pass/MayAliasTracer.cpp`.
-/

namespace EasyJit

open Traverse

/-- The operations of a constant expression that the tracer knows. -/
inductive Opcode
  | getElementPtr | bitCast | other
  deriving DecidableEq, Repr

/-- What a value is made of. -/
inductive ValueKind (ν : Type)
  | function (isDeclaration : Bool)
  | globalVariable (isConstant : Bool) (initializer : Option ν)
  | constantExpr (opcode : Opcode) (operand : ν) (rest : List ν)
  | constantArray (operands : List ν)
  /-- Any other constant. -/
  | constant (operands : List ν)
  | alloca (arraySize : ν)
  | getElementPtr (pointerOperand : ν) (indices : List ν)
  | bitCast (operand : ν)
  | phi (incoming : List ν)
  | select (condition trueValue falseValue : ν)
  | store (valueOperand pointerOperand : ν)
  | memcpy (callee dest source : ν) (rest : List ν)
  /-- Any other call. -/
  | call (callee : ν) (args : List ν)
  /-- Any other instruction, a parameter or a block. -/
  | other (operands : List ν)

namespace ValueKind

variable {ν : Type}

def operands : ValueKind ν → List ν
  | function _ => []
  | globalVariable _ initializer => initializer.toList
  | constantExpr _ operand rest => operand :: rest
  | constantArray operands | constant operands | phi operands | other operands => operands
  | alloca arraySize => [arraySize]
  | getElementPtr pointerOperand indices => pointerOperand :: indices
  | bitCast operand => [operand]
  | select condition trueValue falseValue => [condition, trueValue, falseValue]
  | store valueOperand pointerOperand => [valueOperand, pointerOperand]
  | memcpy callee dest source rest => callee :: dest :: source :: rest
  | call callee args => callee :: args

/-- `isa<GlobalObject>` -/
def isGlobalObject : ValueKind ν → Bool
  | function _ | globalVariable _ _ => true
  | _ => false

/-- `isa<Constant>` -/
def isaConstant : ValueKind ν → Bool
  | function _ | globalVariable _ _ | constantExpr _ _ _ | constantArray _ | constant _ => true
  | _ => false

def isInstruction : ValueKind ν → Bool
  | alloca _ | getElementPtr _ _ | bitCast _ | phi _ | select _ _ _ | store _ _ | memcpy _ _ _ _
  | call _ _ => true
  | _ => false

def isGlobalVariable : ValueKind ν → Bool
  | globalVariable _ _ => true
  | _ => false

/-- A value whose users are looked at for what they store. -/
def isFollowed : ValueKind ν → Bool
  | alloca _ | getElementPtr _ _ | bitCast _ => true
  | _ => false

/-- An alloca or a global variable. -/
def isMemoryObject : ValueKind ν → Bool
  | alloca _ | globalVariable _ _ => true
  | _ => false

end ValueKind

/-- The values of a module. No instruction is an operand of a constant. -/
structure ValueGraph (ν : Type) where
  values : List ν
  mem_values : ∀ v, v ∈ values
  kind : ν → ValueKind ν
  /-- In any order, and as often as they use the value. -/
  users : ν → List ν
  mem_users : ∀ V U, U ∈ users V ↔ V ∈ (kind U).operands
  constant_operands : ∀ v, (kind v).isaConstant = true → ∀ u ∈ (kind v).operands,
    (kind u).isInstruction = false

/-- The ways to look at a value. -/
inductive Mode
  | loaded | stored
  deriving DecidableEq, Repr

/-- The members of a `MayAliasTracer`, and the visited sets of its constructor. -/
structure TracerState (ν : Type) where
  gos : List ν := []
  loaded : List ν := []
  stored : List ν := []
  deriving DecidableEq, Repr

section

variable {ν : Type} [DecidableEq ν] (G : ValueGraph ν)

/-- `GOs_.insert`, for a global object. -/
def TracerState.insertGO (S : TracerState ν) (V : ν) : TracerState ν :=
  if (G.kind V).isGlobalObject then { S with gos := S.gos.insert V } else S

mutual

/-- The first argument bounds the depth of the recursion. -/
def mayAliasWithStoredValues : ℕ → ν → TracerState ν → Option (TracerState ν)
  | 0, _, _ => none
  | n + 1, V, S =>
    if V ∈ S.stored then some S
    else
      let S := TracerState.insertGO G { S with stored := V :: S.stored } V
      match G.kind V with
      | .memcpy _ _ source _ => mayAliasWithLoadedValues n source S
      | .store valueOperand _ => mayAliasWithLoadedValues n valueOperand S
      | .alloca _ | .getElementPtr _ _ | .bitCast _ =>
        (G.users V).foldlM (fun S U => mayAliasWithStoredValues n U S) S
      | _ => some S

def mayAliasWithLoadedValues : ℕ → ν → TracerState ν → Option (TracerState ν)
  | 0, _, _ => none
  | n + 1, V, S =>
    if V ∈ S.loaded then some S
    else
      let S := TracerState.insertGO G { S with loaded := V :: S.loaded } V
      match G.kind V with
      | .phi incoming => incoming.foldlM (fun S U => mayAliasWithLoadedValues n U S) S
      | .select _ trueValue falseValue => do
        let S ← mayAliasWithLoadedValues n trueValue S
        mayAliasWithLoadedValues n falseValue S
      | .alloca _ => mayAliasWithStoredValues n V S
      | .getElementPtr pointerOperand _ => mayAliasWithLoadedValues n pointerOperand S
      | .bitCast operand => mayAliasWithLoadedValues n operand S
      | .constantExpr .getElementPtr operand _ | .constantExpr .bitCast operand _ =>
        mayAliasWithLoadedValues n operand S
      | .globalVariable _ (some initializer) => do
        let S ← mayAliasWithLoadedValues n initializer S
        mayAliasWithStoredValues n V S
      | .globalVariable _ none => mayAliasWithStoredValues n V S
      | .constantArray operands =>
        operands.foldlM (fun S U => mayAliasWithLoadedValues n U S) S
      | _ => some S

end

/-- The constructor. No value is visited twice in one way. -/
def mayAliasTracer (V : ν) : Option (TracerState ν) :=
  mayAliasWithLoadedValues G (2 * G.values.length + 1) V {}

/-- `MayAliasTracer::count`. -/
def MayAliasTracer.count (V GO : ν) : Bool := (mayAliasTracer G V).any fun S => GO ∈ S.gos

/-! ## What the tracer has to see -/

/-- A value that is computed from another by a GEP or a bitcast. -/
def ValueGraph.isCastOf (p q : ν) : Bool :=
  match G.kind q with
  | .getElementPtr pointerOperand _ => pointerOperand = p
  | .bitCast operand => operand = p
  | .constantExpr .getElementPtr operand _ | .constantExpr .bitCast operand _ => operand = p
  | _ => false

/-- A value that is derived from another by GEPs and bitcasts. -/
inductive ValueGraph.Derived (O : ν) : ν → Prop
  | refl : Derived O O
  | tail {p q : ν} : Derived O p → G.isCastOf p q = true → Derived O q

/-- A store or a `memcpy` that writes into an object, with the value it writes. -/
def ValueGraph.Writes (O w : ν) : Prop :=
  ∃ U p, G.Derived O p
    ∧ (G.kind U = .store w p ∨ ∃ callee rest, G.kind U = .memcpy callee p w rest)

/-- The values that are looked at next, and how. -/
def expand : Mode × ν → List (Mode × ν)
  | (.stored, V) => match G.kind V with
    | .memcpy _ _ source _ => [(.loaded, source)]
    | .store valueOperand _ => [(.loaded, valueOperand)]
    | .alloca _ | .getElementPtr _ _ | .bitCast _ => (G.users V).map (.stored, ·)
    | _ => []
  | (.loaded, V) => match G.kind V with
    | .phi incoming => incoming.map (.loaded, ·)
    | .select _ trueValue falseValue => [(.loaded, trueValue), (.loaded, falseValue)]
    | .alloca _ => [(.stored, V)]
    | .getElementPtr pointerOperand _ => [(.loaded, pointerOperand)]
    | .bitCast operand => [(.loaded, operand)]
    | .constantExpr .getElementPtr operand _ | .constantExpr .bitCast operand _ =>
      [(.loaded, operand)]
    | .globalVariable _ (some initializer) => [(.loaded, initializer), (.stored, V)]
    | .globalVariable _ none => [(.stored, V)]
    | .constantArray operands => operands.map (.loaded, ·)
    | _ => []

/-- The rules by which the tracer goes on, whatever the order of operands and users. -/
inductive Follows : Mode × ν → Mode × ν → Prop
  | phi {V U incoming} (h : G.kind V = .phi incoming) (hU : U ∈ incoming) :
      Follows (.loaded, V) (.loaded, U)
  | trueValue {V condition trueValue falseValue}
      (h : G.kind V = .select condition trueValue falseValue) :
      Follows (.loaded, V) (.loaded, trueValue)
  | falseValue {V condition trueValue falseValue}
      (h : G.kind V = .select condition trueValue falseValue) :
      Follows (.loaded, V) (.loaded, falseValue)
  | getElementPtr {V base indices} (h : G.kind V = .getElementPtr base indices) :
      Follows (.loaded, V) (.loaded, base)
  | bitCast {V source} (h : G.kind V = .bitCast source) : Follows (.loaded, V) (.loaded, source)
  | constantExpr {V opcode base rest} (h : G.kind V = .constantExpr opcode base rest)
      (hopcode : opcode = .getElementPtr ∨ opcode = .bitCast) :
      Follows (.loaded, V) (.loaded, base)
  | initializer {V isConstant init} (h : G.kind V = .globalVariable isConstant (some init)) :
      Follows (.loaded, V) (.loaded, init)
  | element {V U elements} (h : G.kind V = .constantArray elements) (hU : U ∈ elements) :
      Follows (.loaded, V) (.loaded, U)
  | memory {V} (h : (G.kind V).isMemoryObject = true) : Follows (.loaded, V) (.stored, V)
  | user {V U} (h : (G.kind V).isFollowed = true) (hU : V ∈ (G.kind U).operands) :
      Follows (.stored, V) (.stored, U)
  | store {V value pointer} (h : G.kind V = .store value pointer) :
      Follows (.stored, V) (.loaded, value)
  | memcpy {V callee dest source rest} (h : G.kind V = .memcpy callee dest source rest) :
      Follows (.stored, V) (.loaded, source)

/-- Where an alloca or a global variable is looked at as a loaded value, the functions and
variables that a value written into it may be are found. -/
def SeesStored (V : ν) : Prop :=
  ∃ S, mayAliasTracer G V = some S ∧ ∀ O ∈ S.loaded, (G.kind O).isMemoryObject = true →
    ∀ w, G.Writes O w → ∀ X, MayAliasTracer.count G w X = true → X ∈ S.gos

/-- Without going on from a global variable. -/
def ReachesLocally : Mode × ν → Mode × ν → Prop :=
  Reaches fun x => if (G.kind x.2).isGlobalVariable then [] else expand G x

/-- What is written into a global variable that is reached is reached without that: each function
or variable that the value itself may be is. -/
def GlobalWritesReached (V : ν) : Prop :=
  ∀ O, (G.kind O).isGlobalVariable = true → Reaches (expand G) (.loaded, V) (.loaded, O) →
    ∀ w, G.Writes O w → ∀ X, (G.kind X).isGlobalObject = true →
      ReachesLocally G (.loaded, w) (.loaded, X) → Reaches (expand G) (.loaded, V) (.loaded, X)

end

end EasyJit
