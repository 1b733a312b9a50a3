import EasyJit.Meaning
import EasyJit.Startup

/-!
# A program that is started

What is asked of the units of a program for their embedded modules to mean what the program does:
of the names, of LLVM's passes, and of the addresses that the linker gives to what is exposed. The
static functions of two units may have one name and mean different things.
-/

namespace EasyJit.Embed

open Linker

variable {ν δ V : Type}

/-- The extraction keeps the variables it is given, as symbols that other modules can see; and the
other passes do not erase those. -/
structure Passes.KeepVariables (passes : Passes ν) : Prop where
  gvExtraction : ∀ gvs (M : ModuleGraph ν) GV data initializer, GV ∈ gvs →
    M.kind GV = .globalVariable data (some initializer) →
    data.linkage ≠ .availableExternallyLinkage → ∃ data',
      (passes.gvExtraction gvs M).kind GV = .globalVariable data' (some initializer)
        ∧ data'.linkage = data.linkage.madeVisible
  keeps : ∀ pass ∈ [passes.globalDCE, passes.stripDeadDebugInfo, passes.stripDeadPrototypes],
    ∀ (M : ModuleGraph ν) GV data initializer,
    M.kind GV = .globalVariable data (some initializer) →
    data.linkage.isDiscardableIfUnused = false → (pass M).kind GV = M.kind GV

/-- The passes do what LLVM's do. Global values have names, but for local variables, and by these
names the unit means `own`; which is what the program does where an embedded copy shows the name to
other modules. A variable that is exposed is not another module's. -/
structure TranslationUnit.Sound (I : Interpretation Op GlobalInfo V) (env own : String → ℕ → V)
    (E : EasyExport) (U : TranslationUnit δ) : Prop where
  documented : U.passes.Documented
  keepReferences : U.passes.KeepReferences
  keepVariables : U.passes.KeepVariables
  hasName : ∀ X data, (U.graph.kind X).data? = some data →
    (U.graph.kind X).isLocalVariable = false → data.name ≠ ""
  ignoresAttributes : U.reading.IgnoresAttributes I
  meansProgram : U.named.MeansProgram U.reading I own
  shown : ∀ X ∈ U.objectsToJIT E, ∀ Embed, cleanModule U.named U.passes X = .ok Embed →
    ∀ m, Embed.Shows m → ∀ n, own m (n + 1) = env m (n + 1)
  exposed : ∀ X ∈ U.objectsToJIT E, ∀ data initializer,
    U.graph.kind X = .globalVariable data initializer →
    data.linkage ≠ .availableExternallyLinkage

/-- The units do, each with a meaning of its own for its names; and what they expose at one address
has one name. -/
structure SoundUnits (I : Interpretation Op GlobalInfo V) (env : String → ℕ → V)
    (E : EasyExport) (units : List (TranslationUnit δ)) : Prop where
  sound : ∀ U ∈ units, ∃ own, U.Sound I env own E
  names : ∀ U ∈ units, ∀ U' ∈ units, ∀ X ∈ U.objectsToJIT E, ∀ X' ∈ U'.objectsToJIT E,
    U.addr (.value X) = U'.addr (.value X') → U.named.getName X = U'.named.getName X'

end EasyJit.Embed
