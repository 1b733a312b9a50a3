import Mathlib.Logic.Function.Basic
import Mathlib.Data.List.Basic

/-!
# Handing the reserved registers over

`Compile` passes the registers of `jit_` to the code generator through `g_reservedRegs`, a
thread-local pointer to the list inside the context it was given. What reads it is
`Hooked_getReservedRegsType`, which the first `Optimize` of the process puts in the target's
vtable, where every later code generation of every thread finds it. An event is one access to
what the threads share, so that a run is any interleaving of calls to `Compile` and
`deserialize`, and of what their callers do with the contexts.
-/

namespace EasyJit.ReservedRegs

abbrev ThreadId := ℕ

/-- The address of a `Context`, and with it of its `reserved_regs`. -/
abbrev ContextPtr := ℕ

/-- Where a thread is. -/
inductive Phase
  | idle
  /-- In `Compile`, before `Optimize` looks at the vtable. -/
  | compiling (C : ContextPtr)
  /-- In `Compile`, before `g_reservedRegs` is set. -/
  | optimized (C : ContextPtr)
  /-- In `CompileAndWrap`, called by `Compile`. -/
  | compileAndWrap (C : ContextPtr)
  /-- In `CompileAndWrap`, called by `deserialize`. -/
  | deserializeAndWrap
  deriving DecidableEq, Repr

inductive Call
  | compile (C : ContextPtr)
  | deserialize
  deriving DecidableEq, Repr

/-- The call a thread is in. -/
def Phase.call : Phase → Option Call
  | .idle => none
  | .compiling C | .optimized C | .compileAndWrap C => some (.compile C)
  | .deserializeAndWrap => some .deserialize

inductive Phase.GeneratesCode : Phase → Prop
  | compileAndWrap (C : ContextPtr) : GeneratesCode (.compileAndWrap C)
  | deserializeAndWrap : GeneratesCode .deserializeAndWrap

structure State where
  /-- `g_org_getReservedRegsType` is set, and the vtable holds the hook. -/
  hooked : Bool
  /-- `g_reservedRegs`, null in a thread that has not set it. -/
  reservedRegs : ThreadId → Option ContextPtr
  phase : ThreadId → Phase
  /-- The `reserved_regs` of the contexts that exist. -/
  contexts : ContextPtr → Option (List String)

def State.init : State := ⟨false, fun _ => none, fun _ => .idle, fun _ => none⟩

inductive Event
  /-- A context is constructed, or given raw bytes. -/
  | setRawBytes (C : ContextPtr) (regs : List String)
  | destroyContext (C : ContextPtr)
  | compile (t : ThreadId) (C : ContextPtr)
  | hookGetReservedRegs (t : ThreadId)
  | setReservedRegs (t : ThreadId) (C : ContextPtr)
  | deserialize (t : ThreadId)
  /-- The hook runs, for a function of the module that is being compiled. -/
  | getReservedRegs (t : ThreadId)
  /-- `Compile` or `deserialize` returns, or an exception leaves it. -/
  | leave (t : ThreadId)
  deriving DecidableEq, Repr

namespace State

def enter (s : State) (t : ThreadId) (p : Phase) : State :=
  { s with phase := Function.update s.phase t p }

/-- No `Compile` that has not returned holds a reference to the context. -/
def Unused (s : State) (C : ContextPtr) : Prop := ∀ t, (s.phase t).call ≠ some (.compile C)

end State

inductive Step : State → Event → State → Prop
  | setRawBytes {s C} (regs : List String) (h : s.Unused C) :
      Step s (.setRawBytes C regs)
        { s with contexts := Function.update s.contexts C (some regs) }
  | destroyContext {s C} (h : s.Unused C) :
      Step s (.destroyContext C) { s with contexts := Function.update s.contexts C none }
  | compile {s t C l} (h : s.phase t = .idle) (hC : s.contexts C = some l) :
      Step s (.compile t C) (s.enter t (.compiling C))
  | hookGetReservedRegs {s t C} (h : s.phase t = .compiling C) :
      Step s (.hookGetReservedRegs t) { s.enter t (.optimized C) with hooked := true }
  | setReservedRegs {s t C} (h : s.phase t = .optimized C) :
      Step s (.setReservedRegs t C)
        { s.enter t (.compileAndWrap C) with
          reservedRegs := Function.update s.reservedRegs t (some C) }
  | deserialize {s t} (h : s.phase t = .idle) :
      Step s (.deserialize t) (s.enter t .deserializeAndWrap)
  | getReservedRegs {s t} (h : (s.phase t).GeneratesCode) (hh : s.hooked = true) :
      Step s (.getReservedRegs t) s
  | leave {s t} (h : s.phase t ≠ .idle) : Step s (.leave t) (s.enter t .idle)

/-- The events so far, and the state they lead to. -/
inductive Run : List Event → State → Prop
  | nil : Run [] .init
  | snoc {es e s s'} (h : Run es s) (he : Step s e s') : Run (es ++ [e]) s'

/-- What `*g_reservedRegs` is. -/
inductive Read
  | nullPointer
  /-- The context that held the list is gone. -/
  | dangling
  | regs (l : List String)
  deriving DecidableEq, Repr

namespace State

def read (s : State) (t : ThreadId) : Read :=
  match s.reservedRegs t with
  | none => .nullPointer
  | some C => match s.contexts C with
    | none => .dangling
    | some l => .regs l

/-- The registers the operation a thread generates code for was given. -/
def ownRegs (s : State) (t : ThreadId) : Option (List String) :=
  match s.phase t with
  | .compileAndWrap C => s.contexts C
  | .deserializeAndWrap => some []
  | _ => none

end State

end EasyJit.ReservedRegs
