import EasyJit.Lib.Meaning
import EasyJit.Requirements

/-!
# What a compiled function means

A program gives every name a meaning. A wrapper is to call what the program means by the name of
the function it is for, and to pass what was captured, however many modules with names in common
were linked together for that.
-/

namespace EasyJit

open Linker

section

variable {β δ V : Type} [BitcodeFormat β δ] (I : Interpretation Op GlobalInfo V)
  (env : String → ℕ → V) (P : Process β δ)

/-- What is registered means by each external name what the program does, and no address is
registered under two names. -/
structure Process.Sound : Prop where
  means : ∀ r ∈ P.registrations, ∀ LM : LModule δ, BitcodeFormat.parse r.info.bitcode = some LM →
    LM.Sound I env
  names : ∀ r ∈ P.registrations, ∀ r' ∈ P.registrations, r.fptr = r'.fptr →
    r.info.name = r'.info.name

/-- A compiled function that is linked in for an argument means by every other name than its own
what the program does. By its own it does too; or what it is linked into does not mention that,
except in what was linked in under the same name. -/
structure SoundArguments (M : LModule δ) (args : List HighLevelArg) (C : Context) : Prop where
  means : ∀ fn, P.moduleSource fn ∈ contextSources P args C → ∀ m, m ≠ (P.modules fn).entry →
    (P.modules fn).mod.Means I env m
  entry : ∀ pre fn post, contextSources P args C = pre ++ P.moduleSource fn :: post →
    (P.modules fn).mod.Means I env (P.modules fn).entry
      ∨ M.mentions (P.modules fn).entry = false
        ∧ ∀ S ∈ pre, S.mod.mentions (P.modules fn).entry = false ∨ S.entry = (P.modules fn).entry

/-- The same, of the module that the arguments are linked into. -/
def ComposesSoundly (addr : Ptr) (C : Context) : Prop :=
  ∀ name M s F body, loaded P addr = .ok (name, M) → getFunction M name = some s →
    M.shape? s = some ⟨.function F, body⟩ → SoundArguments I env P M (F.params.mapIdx paramArg) C

/-- The entry of the module is a wrapper. It calls what the program means by the name, and what it
passes for an argument refers to the functions that were captured, in order. By every other name
the module means what the program does. -/
structure MeansCall (name : String) (F : FunctionInfo) (C : Context) (M : LModule δ)
    (entry : String) (W : Wrapper) : Prop where
  wrapper : M.definition? (.ext entry) = some W.toDef
  function : ∃ body, M.shape? W.callee = some ⟨.function F, body⟩
  callee : ∀ n, M.meaning I env (n + 1) W.callee = env name (n + 1)
  args : W.args.length = F.params.length ∧ ∀ (i : ℕ) ty arg v, F.params[i]? = some ty →
    C.argumentMapping[i]? = some arg → W.args[i]? = some v →
    List.Forall₂ (M.HoldsEntry I env) v.symbols (argSources P (paramArg i ty) arg)
  others : ∀ m, m ≠ entry → M.Means I env m

end

end EasyJit
