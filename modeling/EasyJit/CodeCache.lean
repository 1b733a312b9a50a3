import EasyJit.Lib.UnorderedMap
import EasyJit.Context

/-!
# The code cache

`Cache::jit` and `Cache::has` of `code_cache.h`. A wrapper is a pointer to a compiled function
that may be null; what `easy::jit` does when it is called, the function it compiles or the
exception it throws, is given with the call. The key is the user's, or for `Cache<AutoKey>` the
address of the function with the context recorded for the call.
-/

namespace EasyJit

variable {κ ε φ : Type*}

/-- `Fun_`: null in a default-constructed wrapper. -/
structure FunctionWrapperBase (φ : Type*) where
  fn : Option φ := none
  deriving DecidableEq, Repr

def FunctionWrapperBase.isValid (w : FunctionWrapperBase φ) : Bool := w.fn.isSome

abbrev Cache (κ φ : Type*) := UnorderedMap κ (FunctionWrapperBase φ)

/-- What a call to `jit` does besides changing the cache. -/
structure JitResult (ε φ : Type*) where
  /-- Whether `easy::jit` was called. -/
  compiled : Bool
  /-- The wrapper the returned reference denotes, unless an exception left the call. -/
  value : Except ε (FunctionWrapperBase φ)

namespace Cache

variable [BEq κ]

/-- The entry is assigned only once `easy::jit` has returned. -/
def compileIfNotInCache (c : Cache κ φ) (cacheEntry : ℕ × Bool) (easyJit : Except ε φ) :
    Cache κ φ × JitResult ε φ :=
  if cacheEntry.2 then
    match easyJit with
    | .error e => (c, ⟨true, .error e⟩)
    | .ok f => (c.assign cacheEntry.1 ⟨some f⟩, ⟨true, .ok ⟨some f⟩⟩)
  else (c, ⟨false, .ok ((c.get? cacheEntry.1).getD ⟨none⟩)⟩)

def jit (c : Cache κ φ) (k : κ) (easyJit : Except ε φ) : Cache κ φ × JitResult ε φ :=
  let e := c.emplace k ⟨none⟩
  compileIfNotInCache e.1 e.2 easyJit

def has (c : Cache κ φ) (k : κ) : Bool := (c.find k).isSome

end Cache

/-- A call made to a cache. -/
inductive CacheOp (κ ε φ : Type*)
  | jit (k : κ) (easyJit : Except ε φ)
  | has (k : κ)

namespace Cache

variable [BEq κ]

def step (c : Cache κ φ) : CacheOp κ ε φ → Cache κ φ
  | .jit k r => (c.jit k r).1
  | .has _ => c

/-- The cache after a sequence of calls, from the empty one. -/
def run (ops : List (CacheOp κ ε φ)) : Cache κ φ := ops.foldl step .empty

end Cache

/-! ## The cache on its own keys -/

/-- The function's address and the context of the call. -/
abbrev AutoKey := Ptr × Context

/-- A compiled function: the call it was compiled for, and its own module. -/
structure Compiled where
  key : AutoKey
  mod : ModulePtr
  deriving DecidableEq, Repr

/-- A call made to `Cache<AutoKey>` when no compilation fails; `mod` is the module a compilation
made by this call would produce. -/
inductive AutoOp
  | jit (fn : Ptr) (C : Context) (mod : ModulePtr)
  | has (fn : Ptr) (C : Context)
  deriving DecidableEq, Repr

def AutoOp.toCacheOp : AutoOp → CacheOp AutoKey Empty Compiled
  | .jit p C m => .jit (p, C) (.ok ⟨(p, C), m⟩)
  | .has p C => .has (p, C)

def autoRun (ops : List AutoOp) : Cache AutoKey Compiled := Cache.run (ops.map AutoOp.toCacheOp)

end EasyJit
