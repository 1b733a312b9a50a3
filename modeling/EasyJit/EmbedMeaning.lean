import EasyJit.CleanModule
import EasyJit.IR
import EasyJit.Lib.Meaning

/-!
# What an embedded module means

The embedded copy of a module is a module of the runtime: its symbols are the names of its global
values, and numbers where those are local. The module it was made of is read in the same way, with
the values themselves as symbols, so that one can ask whether the copy means the same.
-/

namespace EasyJit.Embed

open Linker

/-- What an instruction does, and what else is known of a global value, apart from the values that
they refer to; and what a reference to a global value stands for. -/
structure Reading (ν δ : Type) where
  op : ν → Op
  info : ν → Node ν → GlobalInfo
  denotes : ν → Option δ

section

variable {ν δ κ : Type} [DecidableEq ν] (L : Reading ν δ) (M : ModuleGraph ν)

/-- The global values that a value refers to, through so many constants. -/
def globalRefs : ℕ → ν → List ν
  | 0, _ => []
  | n + 1, V =>
    if (M.kind V).data?.isSome then [V]
    else match M.kind V with
    | .constant operands => operands.flatMap (globalRefs n)
    | _ => []

/-- An instruction, with the global values its operands refer to. -/
def lowerInst (sym : ν → Sym κ) (V : ν) (operands : List ν) : Inst κ (Option δ) Op :=
  ⟨L.op V, (operands.flatMap (globalRefs M (M.nodes.length + 1))).map fun W => ⟨sym W, L.denotes W⟩⟩

/-- The operands of an instruction. -/
def Node.instructionOperands : Node ν → List ν
  | instruction operands => operands
  | _ => []

/-- What a global value is defined as, if it is. -/
def lowerDef (sym : ν → Sym κ) (V : ν) : Option (Def κ (Option δ) Op GlobalInfo) :=
  match M.kind V with
  | .function _ _ (some body) operands => some ⟨L.info V (M.kind V),
      lowerInst L M sym V operands
        :: body.map fun I => lowerInst L M sym I (M.kind I).instructionOperands⟩
  | .globalVariable _ (some initializer) =>
    some ⟨L.info V (M.kind V), [lowerInst L M sym V [initializer]]⟩
  | .globalAlias _ aliasee => some ⟨L.info V (M.kind V), [lowerInst L M sym V [aliasee]]⟩
  | .globalIFunc _ resolver => some ⟨L.info V (M.kind V), [lowerInst L M sym V [resolver]]⟩
  | _ => none

def lowerDefs (sym : ν → Sym κ) : List (Sym κ × Def κ (Option δ) Op GlobalInfo) :=
  M.nodes.filterMap fun V => (lowerDef L M sym V).map (sym V, ·)

variable {L M} in
omit [DecidableEq ν] in
theorem mem_lowerDefs {sym : ν → Sym κ} {e : Sym κ × Def κ (Option δ) Op GlobalInfo} :
    e ∈ lowerDefs L M sym ↔ ∃ V, e.1 = sym V ∧ lowerDef L M sym V = some e.2 := by
  simp only [lowerDefs, List.mem_filterMap, Option.map_eq_some_iff, M.mem_nodes, true_and]
  constructor
  · rintro ⟨V, d, hd, rfl⟩
    exact ⟨V, rfl, hd⟩
  · rintro ⟨V, hV, hd⟩
    exact ⟨V, e.2, hd, Prod.ext hV.symm rfl⟩

variable {L M} in
omit [DecidableEq ν] in
/-- The references of a definition are to global values. -/
theorem sym_of_mem_refs {sym : ν → Sym κ} {e : Sym κ × Def κ (Option δ) Op GlobalInfo}
    (he : e ∈ lowerDefs L M sym) {r : Ref κ (Option δ)} (hr : r ∈ e.2.refs) :
    ∃ U, r.sym = sym U := by
  obtain ⟨s, d⟩ := e
  obtain ⟨V, rfl, hd⟩ := mem_lowerDefs.1 he
  have hinst (W : ν) (operands : List ν) (h : r ∈ (lowerInst L M sym W operands).refs) :
      ∃ U, r.sym = sym U := by
    obtain ⟨U, -, rfl⟩ := List.mem_map.1 h
    exact ⟨U, rfl⟩
  obtain ⟨i, hi, hr⟩ := List.mem_flatMap.1 hr
  unfold lowerDef at hd
  split at hd <;> cases hd
  · rcases List.mem_cons.1 hi with rfl | hi
    · exact hinst _ _ hr
    · obtain ⟨I, -, rfl⟩ := List.mem_map.1 hi
      exact hinst _ _ hr
  all_goals
    obtain rfl := List.mem_singleton.1 hi
    exact hinst _ _ hr

variable {L M} in
omit [DecidableEq ν] in
theorem below_of_mem_lowerDefs {sym : ν → Sym κ} {b : ℕ} (hsym : ∀ V, (sym V).Below b)
    {e : Sym κ × Def κ (Option δ) Op GlobalInfo} (he : e ∈ lowerDefs L M sym) :
    e.1.Below b ∧ ∀ r ∈ e.2.refs, r.sym.Below b := by
  obtain ⟨V, hV, -⟩ := mem_lowerDefs.1 he
  refine ⟨hV ▸ hsym V, fun r hr => ?_⟩
  obtain ⟨U, hU⟩ := sym_of_mem_refs he hr
  exact hU ▸ hsym U

omit [DecidableEq ν] in
theorem ext_below (V : ν) : (Linker.Sym.ext V).Below 0 := trivial

/-- The module, with its values as names. -/
def ModuleGraph.program : Linker.Module ν (Option δ) Op GlobalInfo MDNode where
  defs := lowerDefs L M .ext
  declared := M.nodes.filter fun V => (M.kind V).data?.isSome
  next := 0
  localNames := []
  metadata := none
  defs_below _ he := (below_of_mem_lowerDefs ext_below he).1
  refs_below _ he := (below_of_mem_lowerDefs ext_below he).2

/-- The symbol of a global value. -/
def ModuleGraph.sym (V : ν) : Sym String :=
  match (M.kind V).data? with
  | some data => if data.linkage.isLocal then .loc (M.nodes.idxOf V) else .ext data.name
  | none => .loc (M.nodes.idxOf V)

theorem ModuleGraph.sym_below (V : ν) : (M.sym V).Below M.nodes.length := by
  have hV : M.nodes.idxOf V < M.nodes.length := List.idxOf_lt_length_of_mem (M.mem_nodes V)
  unfold ModuleGraph.sym
  split
  · split
    · exact hV
    · trivial
  · exact hV

/-- The module, as it is read back from its bitcode. -/
def ModuleGraph.toModule : LModule δ where
  defs := lowerDefs L M M.sym
  declared := M.nodes.filterMap fun V => match (M.kind V).data? with
    | some data => if data.linkage.isLocal then none else some data.name
    | none => none
  next := M.nodes.length
  localNames := M.nodes.filterMap fun V => match (M.kind V).data? with
    | some data => if data.linkage.isLocal then some (data.name, M.nodes.idxOf V) else none
    | none => none
  metadata := none
  defs_below _ he := (below_of_mem_lowerDefs M.sym_below he).1
  refs_below _ he := (below_of_mem_lowerDefs M.sym_below he).2

/-! ## What a program means by a name -/

/-- The name is one that other modules see. -/
def ModuleGraph.Shows (m : String) : Prop :=
  ∃ V data, (M.kind V).data? = some data ∧ data.linkage.isLocal = false ∧ data.name = m

/-- No two global values have one name. -/
def ModuleGraph.NamesUnique : Prop :=
  ∀ U V data data', (M.kind U).data? = some data → (M.kind V).data? = some data' →
    data.name = data'.name → U = V

variable {V : Type} (I : Interpretation Op GlobalInfo V) (env : String → ℕ → V)

/-- What is meant by a global value that the module only declares. -/
def ModuleGraph.declared (U : ν) (n : ℕ) : V :=
  match (M.kind U).data? with
  | some data => env data.name n
  | none => I.bottom

/-- Every global value of the module means what the program does by its name. -/
def ModuleGraph.MeansProgram : Prop :=
  ∀ U data, (M.kind U).data? = some data → ∀ n,
    (M.program L).meaning I (M.declared I env) (n + 1) (.ext U) = env data.name (n + 1)

/-- Linkage and attributes do not matter. -/
def Reading.IgnoresAttributes : Prop :=
  ∀ U node node', I.apply (L.info U node) = I.apply (L.info U node')

/-! ## What LLVM's passes keep -/

/-- The same, but for the linkage and the like, and for attributes. -/
inductive Node.SameContent : Node ν → Node ν → Prop
  | function {data data' attrs attrs' body operands} :
      SameContent (.function data attrs body operands) (.function data' attrs' body operands)
  | globalVariable {data data' initializer} :
      SameContent (.globalVariable data initializer) (.globalVariable data' initializer)
  | globalAlias {data data' aliasee} :
      SameContent (.globalAlias data aliasee) (.globalAlias data' aliasee)
  | globalIFunc {data data' resolver} :
      SameContent (.globalIFunc data resolver) (.globalIFunc data' resolver)

/-- A global value keeps its name, and what it is defined as if it is still defined. A declaration
is not local. -/
structure Node.Cleaned (node node' : Node ν) : Prop where
  name : node.data?.map (·.name) = node'.data?.map (·.name)
  declared : ∀ data', node'.data? = some data' → node'.isDeclaration = true →
    data'.linkage.isLocal = false
  content : node'.isDeclaration = true ∨ Node.SameContent node node'

/-- The extraction turns global values into declarations, and changes nothing else. -/
structure KeepsValues (pass : ModuleGraph ν → ModuleGraph ν) : Prop where
  values : ∀ (M : ModuleGraph ν) V, (M.kind V).data? = none → (pass M).kind V = M.kind V
  globals : ∀ (M : ModuleGraph ν) V, (M.kind V).data?.isSome = true →
    (M.kind V).Cleaned ((pass M).kind V)

/-- What a value refers to that is not erased is not erased either. -/
structure KeepsReferenced (pass : ModuleGraph ν → ModuleGraph ν) : Prop where
  instructions : ∀ (M : ModuleGraph ν) F data attrs body operands,
    (pass M).kind F = .function data attrs (some body) operands → ∀ I ∈ body,
    (pass M).kind I = M.kind I
  references : ∀ (M : ModuleGraph ν) U V, (pass M).kind U ≠ .notUser → References M U V →
    (pass M).kind V = M.kind V

structure Passes.KeepReferences (passes : Passes ν) : Prop where
  gvExtraction : ∀ gvs, KeepsValues (passes.gvExtraction gvs)
  globalDCE : KeepsReferenced passes.globalDCE
  stripDeadDebugInfo : KeepsReferenced passes.stripDeadDebugInfo
  stripDeadPrototypes : KeepsReferenced passes.stripDeadPrototypes

end

end EasyJit.Embed
