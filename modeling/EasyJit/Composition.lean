import EasyJit.Requirements

/-!
# Runs of compilations

A program compiles functions one after another, with functions that it compiled before as
arguments, and serialises and deserialises some of them.
-/

namespace EasyJit

open Linker

variable {β δ : Type} [BitcodeFormat β δ]

/-- The functions that were compiled so far are those that a compilation finds. -/
def Process.Holds (P : Process β δ) (fs : List (CompiledFunction δ)) : Prop :=
  ∀ (fn : ModulePtr) f, fs[fn]? = some f → (P.modules fn).mod = f.mod

/-- The module has one entry node, which names the definition of a wrapper, by the name that the
address of the function was looked up by. -/
structure CompiledFunction.HasOneEntry (f : CompiledFunction δ) : Prop where
  node : ∃ node, f.mod.metadata = some [node]
  entry : getEntryFunctionName f.mod = .ok f.name
  wrapper : ∃ F of body, f.mod.shape? (.ext f.name) = some ⟨.function F, body⟩
    ∧ F.origin = .wrapper of

end EasyJit
