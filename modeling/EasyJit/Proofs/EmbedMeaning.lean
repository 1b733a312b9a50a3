import EasyJit.EmbedMeaning
import EasyJit.Proofs.CleanModule
import EasyJit.Proofs.Meaning
import Mathlib.Data.Fintype.Basic

/-!
# The embedded copy means the same

What is left of a module refers to what is left of it, and is what it was, or a declaration of the
same name (`cutDown_of_cleanModule`). So the copy simulates the module (`simulates_of_cutDown`).
-/

namespace EasyJit.Embed

open Linker

variable {ν δ : Type}

/-! ## One global value -/

namespace Node

variable {node node' node'' : Node ν}

theorem SameContent.trans (h : SameContent node node') (h' : SameContent node' node'') :
    SameContent node node'' := by
  cases h <;> cases h' <;> constructor

theorem SameContent.isDeclaration (h : SameContent node node') :
    node'.isDeclaration = node.isDeclaration := by
  cases h <;> rfl

theorem sameContent_setLinkage (linkage : Linkage) (h : node.data?.isSome = true) :
    SameContent node (node.setLinkage linkage) := by
  cases node with
  | constant | instruction | notUser => cases h
  | _ => constructor

theorem Cleaned.isSome (h : node.Cleaned node') : node'.data?.isSome = node.data?.isSome := by
  have hname := congrArg Option.isSome h.name
  rwa [Option.isSome_map, Option.isSome_map, eq_comm] at hname

theorem Cleaned.trans (h : node.Cleaned node') (h' : node'.Cleaned node'') :
    node.Cleaned node'' where
  name := h.name.trans h'.name
  declared := h'.declared
  content := by
    rcases h'.content with hdeclared | hsame'
    · exact .inl hdeclared
    · rcases h.content with hdeclared | hsame
      · exact .inl (hsame'.isDeclaration.trans hdeclared)
      · exact .inr (hsame.trans hsame')

theorem instructionOperands_of_global (h : node.data?.isSome = true) :
    node.instructionOperands = [] := by
  cases node with
  | instruction => cases h
  | _ => rfl

end Node

section Fixed

variable {node node' : Node ν} {isEntry : Bool}

theorem Fixed.cleaned (h : Fixed isEntry node node') (hdeclared : ∀ data,
    node.data? = some data → node.isDeclaration = true → data.linkage.isLocal = false) :
    node.Cleaned node' := by
  cases h with
  | reserved hdata _ =>
    refine ⟨rfl, hdeclared, .inr ?_⟩
    cases node with
    | constant | instruction | notUser => cases hdata
    | _ => constructor
  | globalVariable =>
    refine ⟨rfl, ?_, .inl rfl⟩
    rintro _ ⟨⟩ -
    rfl
  | optimizeNone =>
    refine ⟨rfl, ?_, .inr .function⟩
    rintro _ ⟨⟩ hnone
    exact (hdeclared _ rfl hnone :)
  | kept =>
    refine ⟨rfl, ?_, .inr .function⟩
    rintro _ ⟨⟩ hnone
    exact (hdeclared _ rfl hnone :)
  | madePrivate =>
    refine ⟨rfl, ?_, .inr .function⟩
    rintro _ - hnone
    cases hnone

theorem Fixed.isSome (h : Fixed isEntry node node') :
    node.data?.isSome = true ∧ node'.data?.isSome = true := by
  cases h with
  | reserved hdata _ => simp [hdata]
  | _ => exact ⟨rfl, rfl⟩

theorem Fixed.of_function {data : GlobalData} {attrs : List FnAttr} {body : Option (List ν)}
    {operands : List ν} (h : Fixed isEntry node (.function data attrs body operands)) :
    ∃ data' attrs', node = .function data' attrs' body operands := by
  cases h <;> exact ⟨_, _, rfl⟩

theorem Fixed.of_initializer {data : GlobalData} {init : ν}
    (h : Fixed isEntry node (.globalVariable data (some init))) :
    node = .globalVariable data (some init) := by
  cases h
  rfl

theorem Fixed.operands_subset (h : Fixed isEntry node node') : node'.operands ⊆ node.operands := by
  cases h with
  | globalVariable => exact List.nil_subset _
  | _ => exact List.Subset.refl _

theorem Fixed.instructionOperands (h : Fixed isEntry node node') :
    node'.instructionOperands = node.instructionOperands := by
  rw [Node.instructionOperands_of_global h.isSome.1, Node.instructionOperands_of_global h.isSome.2]

end Fixed

/-! ## The passes -/

section Passes

variable {pass pass' : ModuleGraph ν → ModuleGraph ν} {M : ModuleGraph ν} {U V : ν}

theorem ErasesUnreferenced.kind_eq (h : ErasesUnreferenced pass)
    (hV : (pass M).kind V ≠ .notUser) : (pass M).kind V = M.kind V :=
  (h.kept_or_erased M V).resolve_right hV

theorem KeepsReferenced.of_references (h : KeepsReferenced pass) (he : ErasesUnreferenced pass)
    (href : References (pass M) U V) : References M U V := by
  cases href with
  | operand hV =>
    have hU : (pass M).kind U ≠ .notUser := fun hU => by
      rw [hU] at hV
      cases hV
    exact .operand (he.kind_eq hU ▸ hV)
  | instruction hF hI hV =>
    have hkind := he.kind_eq (V := U) (by rw [hF]; nofun)
    exact .instruction (hkind ▸ hF) hI (h.instructions M _ _ _ _ _ hF _ hI ▸ hV)
  | initializer hGV =>
    have hkind := he.kind_eq (V := U) (by rw [hGV]; nofun)
    exact .initializer (hkind ▸ hGV)

theorem KeepsReferenced.references_kept (h : KeepsReferenced pass) (he : ErasesUnreferenced pass)
    (hU : (pass M).kind U ≠ .notUser) (href : References M U V) : References (pass M) U V := by
  have hkind := he.kind_eq hU
  cases href with
  | operand hV => exact .operand (hkind ▸ hV)
  | instruction hF hI hV =>
    have hF' := hkind.trans hF
    exact .instruction hF' hI (h.instructions M _ _ _ _ _ hF' _ hI ▸ hV)
  | initializer hGV => exact .initializer (hkind.trans hGV)

theorem KeepsReferenced.comp (h : KeepsReferenced pass) (he : ErasesUnreferenced pass)
    (h' : KeepsReferenced pass') (he' : ErasesUnreferenced pass') :
    KeepsReferenced fun M => pass' (pass M) where
  instructions := by
    intro M F data attrs body operands hF I hI
    have hkind := he'.kind_eq (M := pass M) (V := F) (by rw [hF]; nofun)
    rw [h'.instructions (pass M) F data attrs body operands hF I hI]
    exact h.instructions M F data attrs body operands (hkind ▸ hF) I hI
  references := by
    intro M U V hU href
    have hU' := he'.kind_eq hU ▸ hU
    rw [h'.references (pass M) U V hU (h.references_kept he hU' href)]
    exact h.references M U V hU' href

theorem Passes.KeepReferences.dce {passes : Passes ν} (h : passes.KeepReferences)
    (hd : passes.Documented) : KeepsReferenced fun M =>
      passes.stripDeadPrototypes (passes.stripDeadDebugInfo (passes.globalDCE M)) :=
  (h.globalDCE.comp hd.globalDCE h.stripDeadDebugInfo hd.stripDeadDebugInfo).comp
    (hd.globalDCE.comp hd.stripDeadDebugInfo) h.stripDeadPrototypes hd.stripDeadPrototypes

end Passes

/-! ## A module that is cut down -/

section CutDown

variable [DecidableEq ν] {M M' M'' : ModuleGraph ν} {passes : Passes ν} {Entry U V : ν}

/-- What is left is what it was, or a declaration, and refers to what is left. -/
structure CutDown (M M' : ModuleGraph ν) : Prop where
  globals : ∀ V, (M'.kind V).data?.isSome = true → (M.kind V).Cleaned (M'.kind V)
  instructions : ∀ F data attrs body operands,
    M'.kind F = .function data attrs (some body) operands →
    ∀ I ∈ body, (M'.kind I).instructionOperands = (M.kind I).instructionOperands
  closed : ∀ U V, References M' U V → (M'.kind V).data?.isSome = true ∨ M'.kind V = M.kind V

/-- What `fixLinkages` leaves refers to nothing new. -/
theorem references_of_fixLinkages (h : fixLinkages M Entry = .ok M') (href : References M' U V) :
    References M U V := by
  have hoperands (W : ν) (hV : V ∈ (M'.kind W).operands) : V ∈ (M.kind W).operands := by
    rcases fixLinkages_kind h W with hfixed | ⟨-, heq⟩
    · exact hfixed.operands_subset hV
    · exact heq ▸ hV
  cases href with
  | operand hV => exact .operand (hoperands U hV)
  | instruction hF hI hV =>
    have hfixed := fixLinkages_global h (congrArg Node.data? hF)
    rw [hF] at hfixed
    obtain ⟨data, attrs, hU⟩ := hfixed.of_function
    exact .instruction hU hI (hoperands _ hV)
  | initializer hGV =>
    have hfixed := fixLinkages_global h (congrArg Node.data? hGV)
    rw [hGV] at hfixed
    exact .initializer hfixed.of_initializer

omit [DecidableEq ν] in
/-- What the passes leave, before the linkages are fixed. -/
theorem cutDown_of_run (hpasses : passes.Documented) (hkeep : passes.KeepReferences)
    (gvs : List ν) : CutDown M (passes.run gvs M) := by
  have hdce := hpasses.dce
  have hrefs := hkeep.dce hpasses
  have hextract := hkeep.gvExtraction gvs
  -- what is not erased is what the extraction left
  have hkind (V : ν) (hV : (passes.run gvs M).kind V ≠ .notUser) :
      (passes.run gvs M).kind V = (passes.gvExtraction gvs M).kind V := hdce.kind_eq hV
  have hglobal (V : ν) (hV : ((passes.gvExtraction gvs M).kind V).data?.isSome = true) :
      (M.kind V).data?.isSome = true := by
    by_contra hnot
    rw [hextract.values M V (by simpa using hnot)] at hV
    exact hnot hV
  refine ⟨fun V hV => ?_, fun F data attrs body operands hF I hI => ?_, fun U V href => ?_⟩
  · have heq := hkind V fun h => by
      rw [h] at hV
      cases hV
    rw [heq] at hV ⊢
    exact hextract.globals M V (hglobal V hV)
  · have heq := hrefs.instructions _ F data attrs body operands hF I hI
    rw [show (passes.run gvs M).kind I = _ from heq]
    cases hM : (M.kind I).data? with
    | none => rw [hextract.values M I hM]
    | some data =>
      have hI : (M.kind I).data?.isSome = true := by rw [hM]; rfl
      rw [Node.instructionOperands_of_global hI, Node.instructionOperands_of_global
        ((hextract.globals M I hI).isSome.trans hI)]
  · have hU : (passes.run gvs M).kind U ≠ .notUser := fun h => by
      have := href.isUser
      rw [h] at this
      cases this
    have heq := hrefs.references _ U V hU (hrefs.of_references hdce href)
    rw [show (passes.run gvs M).kind V = _ from heq]
    cases hM : (M.kind V).data? with
    | none => exact .inr (hextract.values M V hM)
    | some data =>
      have hV : (M.kind V).data?.isSome = true := by rw [hM]; rfl
      exact .inl ((hextract.globals M V hV).isSome.trans hV)

theorem kind_exposeEntry (M : ModuleGraph ν) (Entry V : ν) :
    (exposeEntry M Entry).kind V = M.kind V
      ∨ (M.kind V).data?.isSome = true
        ∧ (exposeEntry M Entry).kind V = (M.kind V).setLinkage .externalLinkage := by
  unfold exposeEntry
  split_ifs with hfun
  · by_cases hV : V = Entry
    · subst hV
      refine .inr ⟨?_, Function.update_self ..⟩
      cases hM : M.kind V <;> rw [hM] at hfun <;> first | rfl | cases hfun
    · exact .inl (Function.update_of_ne hV ..)
  · exact .inl rfl

/-- The entry is exposed first. -/
theorem CutDown.of_exposeEntry (h : CutDown (exposeEntry M Entry) M') : CutDown M M' := by
  have hcleaned (V : ν) {node : Node ν} (hV : ((exposeEntry M Entry).kind V).Cleaned node) :
      (M.kind V).Cleaned node := by
    rcases kind_exposeEntry M Entry V with heq | ⟨hglobal, heq⟩
    · exact heq ▸ hV
    · rw [heq] at hV
      have hsame := Node.sameContent_setLinkage .externalLinkage hglobal
      refine ⟨Eq.trans ?_ hV.name, hV.declared, hV.content.imp_right hsame.trans⟩
      cases M.kind V <;> rfl
  refine ⟨fun V hV => hcleaned V (h.globals V hV), fun F data attrs body operands hF I hI => ?_,
    fun U V href => ?_⟩
  · rw [h.instructions F data attrs body operands hF I hI]
    rcases kind_exposeEntry M Entry I with heq | ⟨hglobal, heq⟩
    · rw [heq]
    · rw [heq]
      cases M.kind I <;> rfl
  · rcases h.closed U V href with hglobal | heq
    · exact .inl hglobal
    · rcases kind_exposeEntry M Entry V with heq' | ⟨hglobal, heq'⟩
      · exact .inr (heq.trans heq')
      · rw [heq, heq']
        refine .inl ?_
        cases hM : M.kind V <;> rw [hM] at hglobal <;> first | rfl | cases hglobal

theorem CutDown.fixLinkages (h : CutDown M M') (hfix : fixLinkages M' Entry = .ok M'') :
    CutDown M M'' := by
  refine ⟨fun V hV => ?_, fun F data attrs body operands hF I hI => ?_, fun U V href => ?_⟩
  · obtain ⟨data, hdata⟩ := Option.isSome_iff_exists.1 hV
    have hfixed := fixLinkages_global hfix hdata
    have hcleaned := h.globals V hfixed.isSome.1
    exact hcleaned.trans (hfixed.cleaned hcleaned.declared)
  · have hfixed := fixLinkages_global hfix (congrArg Node.data? hF)
    rw [hF] at hfixed
    obtain ⟨data', attrs', hF'⟩ := hfixed.of_function
    rw [← h.instructions F data' attrs' body operands hF' I hI]
    rcases fixLinkages_kind hfix I with hI | ⟨-, heq⟩
    · exact hI.instructionOperands
    · rw [heq]
  · rcases fixLinkages_kind hfix V with hfixed | ⟨hnone, heq⟩
    · exact .inl hfixed.isSome.2
    · rcases h.closed U V (references_of_fixLinkages hfix href) with hglobal | hsame
      · rw [hnone] at hglobal
        cases hglobal
      · exact .inr (heq.trans hsame)

theorem cutDown_of_cleanModule (hpasses : passes.Documented) (hkeep : passes.KeepReferences)
    (h : cleanModule M passes Entry = .ok M') : CutDown M M' := by
  have hpruned : CutDown M (pruneModule M passes Entry) :=
    (cutDown_of_run hpasses hkeep _).of_exposeEntry
  unfold cleanModule at h
  split_ifs at h
  · exact hpruned.fixLinkages h
  · cases h
    exact hpruned

end CutDown

/-! ## The simulation -/

section Simulates

variable [DecidableEq ν] {M M' : ModuleGraph ν} {L : Reading ν δ} {V W : ν}

omit [DecidableEq ν] in
theorem length_nodes (M M' : ModuleGraph ν) : M'.nodes.length = M.nodes.length :=
  ((List.perm_ext_iff_of_nodup M'.nodup_nodes M.nodup_nodes).2 fun V =>
    iff_of_true (M'.mem_nodes V) (M.mem_nodes V)).length_eq

/-- A value that something left refers to. -/
def Closed (M M' : ModuleGraph ν) (V : ν) : Prop :=
  (M'.kind V).data?.isSome = true ∨ M'.kind V = M.kind V

omit [DecidableEq ν] in
/-- The same global values are referred to, and all of them are left. -/
theorem globalRefs_eq (h : CutDown M M') : ∀ n V, Closed M M' V →
    globalRefs M' n V = globalRefs M n V ∧ ∀ W ∈ globalRefs M' n V, (M'.kind W).data?.isSome = true
  | 0, _, _ => ⟨rfl, nofun⟩
  | n + 1, V, hV => by
    by_cases hglobal : (M'.kind V).data?.isSome = true
    · have hM : (M.kind V).data?.isSome = true := (h.globals V hglobal).isSome ▸ hglobal
      rw [globalRefs, globalRefs, if_pos hglobal, if_pos hM]
      exact ⟨rfl, fun W hW => List.mem_singleton.1 hW ▸ hglobal⟩
    · have heq : M'.kind V = M.kind V := hV.resolve_left hglobal
      rw [globalRefs, globalRefs, if_neg hglobal, ← heq, if_neg hglobal]
      cases hkind : M'.kind V with
      | constant operands =>
        have ih (U : ν) (hU : U ∈ operands) := globalRefs_eq h n U <|
          h.closed V U (.operand (by rw [hkind]; exact hU))
        refine ⟨List.flatMap_congr fun U hU => (ih U hU).1, fun W hW => ?_⟩
        obtain ⟨U, hU, hW⟩ := List.mem_flatMap.1 hW
        exact (ih U hU).2 W hW
      | _ => exact ⟨rfl, nofun⟩

/-- The symbols of a global value that is left. -/
def SameGlobal (M' : ModuleGraph ν) (s : Sym String) (t : Sym ν) : Prop :=
  ∃ V, (M'.kind V).data?.isSome = true ∧ s = M'.sym V ∧ t = .ext V

theorem lowerInst_similar (h : CutDown M M') {operands : List ν}
    (hclosed : ∀ V ∈ operands, Closed M M' V) (W : ν) :
    (lowerInst L M' M'.sym W operands).Similar (SameGlobal M') (lowerInst L M .ext W operands) := by
  have hrefs : operands.flatMap (globalRefs M' (M'.nodes.length + 1))
      = operands.flatMap (globalRefs M (M.nodes.length + 1)) := by
    rw [length_nodes M M']
    exact List.flatMap_congr fun V hV => (globalRefs_eq h _ V (hclosed V hV)).1
  refine ⟨rfl, ?_⟩
  rw [lowerInst, lowerInst, ← hrefs, List.forall₂_map_left_iff, List.forall₂_map_right_iff,
    List.forall₂_same]
  intro U hU
  obtain ⟨V, hV, hU⟩ := List.mem_flatMap.1 hU
  exact ⟨U, (globalRefs_eq h _ V (hclosed V hV)).2 U hU, rfl, rfl⟩

omit [DecidableEq ν] in
theorem Node.mem_operands_of_instruction {node : Node ν} (h : V ∈ node.instructionOperands) :
    V ∈ node.operands := by
  cases node with
  | instruction => exact h
  | _ => cases h

omit [DecidableEq ν] in
theorem global_of_lowerDef {κ : Type} {sym : ν → Sym κ} {d : Def κ (Option δ) Op GlobalInfo}
    (hd : lowerDef L M sym V = some d) :
    (M.kind V).data?.isSome = true ∧ (M.kind V).isDeclaration = false := by
  unfold lowerDef at hd
  split at hd
  case h_5 => cases hd
  all_goals
    rename_i hV
    rw [hV]
    exact ⟨rfl, rfl⟩

/-- What is still defined is defined as it was. -/
theorem lowerDef_similar {τ : Type} {I : Interpretation Op GlobalInfo τ} (h : CutDown M M')
    (hI : L.IgnoresAttributes I) {d : Def String (Option δ) Op GlobalInfo}
    (hd : lowerDef L M' M'.sym V = some d) :
    ∃ d', lowerDef L M .ext V = some d' ∧ d.Similar I (SameGlobal M') d' := by
  obtain ⟨hglobal, hdefined⟩ := global_of_lowerDef hd
  have hsame : (M.kind V).SameContent (M'.kind V) :=
    (h.globals V hglobal).content.resolve_left (by simp [hdefined])
  have hinst {operands : List ν} (hV : (M'.kind V).operands = operands) :=
    lowerInst_similar (L := L) h (fun W hW => h.closed V W (.operand (hV ▸ hW))) V
  rw [lowerDef] at hd
  generalize hM : M.kind V = node, hM' : M'.kind V = node' at hsame hd
  cases hsame with
  | @function _ _ _ _ body operands =>
    cases body with
    | none => cases hd
    | some body =>
      cases hd
      refine ⟨_, by rw [lowerDef, hM], hI V _ _, .cons (hinst (by rw [hM'])) ?_⟩
      rw [List.forall₂_map_left_iff, List.forall₂_map_right_iff, List.forall₂_same]
      intro J hJ
      rw [← h.instructions V _ _ body operands hM' J hJ]
      exact lowerInst_similar h (fun W hW => h.closed V W
        (.instruction hM' hJ (Node.mem_operands_of_instruction hW))) J
  | @globalVariable _ _ initializer =>
    cases initializer with
    | none => cases hd
    | some init =>
      cases hd
      exact ⟨_, by rw [lowerDef, hM], hI V _ _, .cons (hinst (by rw [hM'])) .nil⟩
  | globalAlias | globalIFunc =>
    cases hd
    exact ⟨_, by rw [lowerDef, hM], hI V _ _, .cons (hinst (by rw [hM'])) .nil⟩

omit [DecidableEq ν] in
/-- The definition of a symbol is that of the global value it is the symbol of. -/
theorem definition?_of_lowerDefs {κ μ : Type} [DecidableEq κ]
    {N : Linker.Module κ (Option δ) Op GlobalInfo μ} (sym : ν → Sym κ)
    (hdefs : N.defs = lowerDefs L M sym)
    (hinj : ∀ U, (M.kind U).data?.isSome = true → sym U = sym V → U = V) :
    N.definition? (sym V) = lowerDef L M sym V := by
  have hfound {e : Sym κ × Def κ (Option δ) Op GlobalInfo} (he : e ∈ N.defs) (hs : e.1 = sym V) :
      lowerDef L M sym V = some e.2 := by
    obtain ⟨U, hU, hd⟩ := mem_lowerDefs.1 (hdefs ▸ he)
    exact hinj U (global_of_lowerDef hd).1 (hU ▸ hs) ▸ hd
  cases hd : N.definition? (sym V) with
  | some d => exact (hfound (Module.mem_defs_of_definition? hd) rfl).symm
  | none =>
    cases hV : lowerDef L M sym V with
    | none => rfl
    | some d =>
      have hmem : (sym V, d) ∈ N.defs := hdefs ▸ mem_lowerDefs.2 ⟨V, rfl, hV⟩
      rw [Module.definition?, Option.map_eq_none_iff, List.find?_eq_none] at hd
      exact absurd (decide_eq_true rfl) (hd _ hmem)

theorem definition?_program (V : ν) :
    (M.program L).definition? (.ext V) = lowerDef L M .ext V :=
  definition?_of_lowerDefs .ext rfl fun _ _ h => Linker.Sym.ext.inj h

omit [DecidableEq ν] in
theorem namesUnique_of_names (h : ∀ U V, ((M.kind U).data?.map (·.name)).isSome →
    (M.kind U).data?.map (·.name) = (M.kind V).data?.map (·.name) → U = V) : M.NamesUnique := by
  intro U V data data' hU hV heq
  exact h U V (by rw [hU]; rfl) (by rw [hU, hV, Option.map_some, Option.map_some, heq])

/-- Different global values have different symbols. -/
theorem sym_injective (hnames : M.NamesUnique) {U : ν} (hU : (M.kind U).data?.isSome = true)
    (h : M.sym U = M.sym V) : U = V := by
  obtain ⟨data, hdata⟩ := Option.isSome_iff_exists.1 hU
  have hidx (h : M.nodes.idxOf U = M.nodes.idxOf V) : U = V :=
    (List.idxOf_inj (M.mem_nodes U)).1 h
  unfold ModuleGraph.sym at h
  rw [hdata] at h
  cases hV : (M.kind V).data? with
  | none =>
    rw [hV] at h
    dsimp only at h
    split_ifs at h
    exact hidx (Linker.Sym.loc.inj h)
  | some data' =>
    rw [hV] at h
    dsimp only at h
    split_ifs at h
    · exact hidx (Linker.Sym.loc.inj h)
    · exact hnames U V data data' hdata hV (Linker.Sym.ext.inj h)

theorem definition?_toModule (hnames : M.NamesUnique) (V : ν) :
    (M.toModule L).definition? (M.sym V) = lowerDef L M M.sym V :=
  definition?_of_lowerDefs _ rfl fun _ hU h => sym_injective hnames hU h

omit [DecidableEq ν] in
theorem isDeclaration_of_lowerDef {κ : Type} {sym : ν → Sym κ}
    (hglobal : (M.kind V).data?.isSome = true) (hd : lowerDef L M sym V = none) :
    (M.kind V).isDeclaration = true := by
  rw [lowerDef] at hd
  cases hM : M.kind V with
  | function data attrs body operands =>
    cases body with
    | none => rfl
    | some body => simp [hM] at hd
  | globalVariable data initializer =>
    cases initializer with
    | none => rfl
    | some init => simp [hM] at hd
  | globalAlias | globalIFunc => simp [hM] at hd
  | _ =>
    rw [hM] at hglobal
    cases hglobal

omit [DecidableEq ν] in
theorem CutDown.name (h : CutDown M M') {data' : GlobalData}
    (hdata : (M'.kind V).data? = some data') :
    ∃ data, (M.kind V).data? = some data ∧ data.name = data'.name := by
  have hname := (h.globals V (by rw [hdata]; rfl)).name
  rw [hdata, Option.map_some] at hname
  obtain ⟨data, hM, heq⟩ := Option.map_eq_some_iff.1 hname
  exact ⟨data, hM, heq⟩

omit [DecidableEq ν] in
theorem CutDown.namesUnique (h : CutDown M M') (hnames : M.NamesUnique) : M'.NamesUnique := by
  intro U V data data' hU hV heq
  obtain ⟨dataU, hU', hnameU⟩ := h.name hU
  obtain ⟨dataV, hV', hnameV⟩ := h.name hV
  exact hnames U V dataU dataV hU' hV' (hnameU.trans (heq.trans hnameV.symm))

theorem sym_eq {data : GlobalData} (hdata : (M.kind V).data? = some data) : M.sym V
    = if data.linkage.isLocal then .loc (M.nodes.idxOf V) else .ext data.name := by
  rw [ModuleGraph.sym, hdata]

theorem shows_of_sym {m : String} (h : M.sym V = .ext m) : M.Shows m := by
  unfold ModuleGraph.sym at h
  split at h
  · rename_i data hdata
    split_ifs at h with hlocal
    cases h
    exact ⟨V, data, hdata, Bool.not_eq_true _ ▸ hlocal, rfl⟩
  · cases h

/-- What is mentioned in the module that is read back can be seen from others. -/
theorem shows_of_mentions {m : String} (h : (M.toModule L).mentions m = true) : M.Shows m := by
  rcases Module.mentions_iff.1 h with h | ⟨e, he, h | ⟨r, hr, h⟩⟩
  · obtain ⟨V, -, hV⟩ := List.mem_filterMap.1 h
    split at hV
    · rename_i data hdata
      split_ifs at hV with hlocal
      cases hV
      exact ⟨V, data, hdata, Bool.not_eq_true _ ▸ hlocal, rfl⟩
    · cases hV
  · obtain ⟨V, hV, -⟩ := mem_lowerDefs.1 he
    exact shows_of_sym (hV.symm.trans h)
  · obtain ⟨U, hU⟩ := sym_of_mem_refs he hr
    exact shows_of_sym (hU.symm.trans h)

variable {τ : Type} {I : Interpretation Op GlobalInfo τ} {env : String → ℕ → τ}

theorem simulates_of_cutDown (h : CutDown M M') (hnames : M.NamesUnique)
    (hI : L.IgnoresAttributes I) (hprog : M.MeansProgram L I env) :
    (M'.toModule L).Simulates I env (M.declared I env) (M.program L) (SameGlobal M') := by
  have hnames' := h.namesUnique hnames
  constructor
  · rintro _ _ d ⟨V, hV, rfl, rfl⟩ hd
    rw [definition?_toModule hnames'] at hd
    rw [definition?_program]
    exact lowerDef_similar h hI hd
  · rintro _ _ ⟨V, hV, rfl, rfl⟩ hd n
    rw [definition?_toModule hnames'] at hd
    obtain ⟨data', hdata'⟩ := Option.isSome_iff_exists.1 hV
    obtain ⟨data, hdata, hname⟩ := h.name hdata'
    have hlocal := (h.globals V hV).declared data' hdata' (isDeclaration_of_lowerDef hV hd)
    rw [hprog V data hdata n, hname, sym_eq hdata', hlocal]
    rfl

/-- What a global value that is left means by its symbol is what the program does by its name. -/
theorem meaning_sym (h : CutDown M M') (hnames : M.NamesUnique) (hI : L.IgnoresAttributes I)
    (hprog : M.MeansProgram L I env) {data' : GlobalData} (hdata : (M'.kind V).data? = some data')
    (n : ℕ) : (M'.toModule L).meaning I env (n + 1) (M'.sym V) = env data'.name (n + 1) := by
  obtain ⟨data, hM, hname⟩ := h.name hdata
  have hsim := simulates_of_cutDown h hnames hI hprog
  rw [hsim.meaning (n + 1) _ (.ext V) ⟨V, by rw [hdata]; rfl, rfl, rfl⟩, hprog V data hM n, hname]

theorem soundNames_of_cutDown (h : CutDown M M') (hnames : M.NamesUnique)
    (hI : L.IgnoresAttributes I) (hprog : M.MeansProgram L I env) :
    (M'.toModule L).SoundNames I env := by
  have hmeaning {V : ν} {data' : GlobalData} (hdata : (M'.kind V).data? = some data') (n : ℕ) :
      (M'.toModule L).meaning I env (n + 1) (M'.sym V) = env data'.name (n + 1) :=
    meaning_sym h hnames hI hprog hdata n
  constructor
  · intro m n
    cases hd : (M'.toModule L).definition? (.ext m) with
    | none => exact Module.meaning_of_undefined hd
    | some d =>
      obtain ⟨V, hV, hlower⟩ := mem_lowerDefs.1 (Module.mem_defs_of_definition? hd)
      obtain ⟨data, hdata⟩ := Option.isSome_iff_exists.1 (global_of_lowerDef hlower).1
      have hsym := sym_eq hdata
      rw [← hV] at hsym
      split_ifs at hsym
      cases hsym
      rw [show Linker.Sym.ext data.name = M'.sym V from hV]
      exact hmeaning hdata n
  · intro e he
    obtain ⟨V, -, hV⟩ := List.mem_filterMap.1 he
    split at hV
    · rename_i data hdata
      split_ifs at hV with hlocal
      cases hV
      refine ⟨List.idxOf_lt_length_of_mem (M'.mem_nodes V), fun n => ?_⟩
      rw [← hmeaning hdata n, sym_eq hdata, if_pos hlocal]
    · cases hV

theorem exists_entry {data : GlobalData} {attrs : List FnAttr} {body operands : List ν}
    {passes : Passes ν} {Entry : ν} (hpasses : passes.Documented)
    (hEntry : M.kind Entry = .function data attrs (some body) operands)
    (h : cleanModule M passes Entry = .ok M') : ∃ data' attrs' body' operands',
      M'.kind Entry = .function data' attrs' (some body') operands'
        ∧ data'.linkage = .externalLinkage := by
  obtain ⟨data₁, attrs₁, body₁, operands₁, hpruned, hlinkage⟩ := pruned_entry hpasses hEntry
  have hfix : EasyJit.Embed.fixLinkages (pruneModule M passes Entry) Entry = .ok M' := by
    simpa [cleanModule, hEntry, Node.isFunction] using h
  have hfixed := fixLinkages_fixed hfix (congrArg Node.data? hpruned)
  rw [hpruned, decide_eq_true rfl] at hfixed
  obtain ⟨data', attrs', hM', hlinkage'⟩ := hfixed.entry
  exact ⟨data', attrs', body₁, operands₁, hM', hlinkage'.trans hlinkage⟩

/-- A global value that other modules can see and that is defined is defined in what is embedded. -/
theorem defines_toModule (hnames : M'.NamesUnique) {data : GlobalData}
    (hdata : (M'.kind V).data? = some data) (hlinkage : data.linkage.isLocal = false)
    (hdef : (lowerDef L M' M'.sym V).isSome = true) : (M'.toModule L).defines data.name = true := by
  have hsym : M'.sym V = .ext data.name := by
    rw [sym_eq hdata, hlinkage]
    rfl
  have hd : (M'.toModule L).definition? (.ext data.name) = lowerDef L M' M'.sym V :=
    hsym ▸ definition?_toModule hnames V
  rw [Module.defines, Module.shape?_eq_map, hd, Option.isSome_map, hdef]

theorem defines_entry {passes : Passes ν} {Entry : ν} (hpasses : passes.Documented)
    (hkeep : passes.KeepReferences) (hnames : M.NamesUnique)
    (h : cleanModule M passes Entry = .ok M') {data : GlobalData} {attrs : List FnAttr}
    {body operands : List ν} (hEntry : M.kind Entry = .function data attrs (some body) operands) :
    (M'.toModule L).defines data.name = true := by
  have hcut := cutDown_of_cleanModule hpasses hkeep h
  obtain ⟨data', attrs', body', operands', hM', hlinkage⟩ := exists_entry hpasses hEntry h
  have hdata' := congrArg Node.data? hM'
  obtain ⟨data₀, hdata₀, hname⟩ := hcut.name hdata'
  rw [hEntry] at hdata₀
  cases hdata₀
  rw [hname]
  refine defines_toModule (hcut.namesUnique hnames) hdata' (by rw [hlinkage]; rfl) ?_
  rw [lowerDef, hM']
  rfl

/-- The copy that is embedded for an entry means by each of its names what the program does; and it
defines the entry, if that is a function. -/
theorem cleanModule_soundNames {passes : Passes ν} {Entry : ν} (hpasses : passes.Documented)
    (hkeep : passes.KeepReferences) (hnames : M.NamesUnique) (hI : L.IgnoresAttributes I)
    (hprog : M.MeansProgram L I env) (h : cleanModule M passes Entry = .ok M') :
    (M'.toModule L).SoundNames I env ∧ ∀ data attrs body operands,
      M.kind Entry = .function data attrs (some body) operands →
      (M'.toModule L).defines data.name = true :=
  ⟨soundNames_of_cutDown (cutDown_of_cleanModule hpasses hkeep h) hnames hI hprog,
    fun _ _ _ _ hEntry => defines_entry hpasses hkeep hnames h hEntry⟩

end Simulates

section Samples

theorem keepsReferenced_id : KeepsReferenced (id : ModuleGraph ν → ModuleGraph ν) where
  instructions := fun _ _ _ _ _ _ _ _ _ => rfl
  references := fun _ _ _ _ _ => rfl

theorem GlobalData.makeVisible_isLocal (data : GlobalData) :
    data.makeVisible.linkage.isLocal = false := by
  unfold GlobalData.makeVisible
  cases hlinkage : data.linkage <;> simp [Linkage.isLocal, Linkage.madeVisible]

theorem GlobalData.makeVisible_name (data : GlobalData) : data.makeVisible.name = data.name := by
  unfold GlobalData.makeVisible
  split_ifs <;> rfl

theorem extractGV_cleaned {node : Node ν} {listed : Bool} (h : node.data?.isSome = true) :
    node.Cleaned (extractGV listed node) := by
  cases node with
  | function data attrs body operands =>
    rw [extractGV]
    split_ifs
    · refine ⟨congrArg some data.makeVisible_name.symm, ?_, .inr .function⟩
      rintro _ ⟨⟩ -
      exact data.makeVisible_isLocal
    · refine ⟨rfl, ?_, .inl rfl⟩
      rintro _ ⟨⟩ -
      rfl
  | globalVariable data initializer =>
    rw [extractGV]
    split_ifs
    · refine ⟨congrArg some data.makeVisible_name.symm, ?_, .inr .globalVariable⟩
      rintro _ ⟨⟩ -
      exact data.makeVisible_isLocal
    · refine ⟨rfl, ?_, .inl rfl⟩
      rintro _ ⟨⟩ -
      rfl
  | globalAlias =>
    refine ⟨rfl, ?_, .inr .globalAlias⟩
    rintro _ - ⟨⟩
  | globalIFunc =>
    refine ⟨rfl, ?_, .inr .globalIFunc⟩
    rintro _ - ⟨⟩
  | _ => cases h

theorem extractOnly_keepReferences [DecidableEq ν] : (extractOnly : Passes ν).KeepReferences where
  gvExtraction gvs := {
    values := by
      intro M V hV
      show extractGV _ (M.kind V) = M.kind V
      cases hM : M.kind V <;> rw [hM] at hV <;> first | rfl | cases hV
    globals := fun M V hV => extractGV_cleaned hV }
  globalDCE := keepsReferenced_id
  stripDeadDebugInfo := keepsReferenced_id
  stripDeadPrototypes := keepsReferenced_id

inductive StaticValue
  | main | helper | counter | call | load | cast | zero
  deriving DecidableEq

instance : Fintype StaticValue where
  elems := ⟨↑[StaticValue.main, .helper, .counter, .call, .load, .cast, .zero], by decide⟩
  complete V := by cases V <;> decide

/-- `main` calls a static function, which reads a static variable through a cast. -/
def readsStatic : ModuleGraph StaticValue where
  nodes := [.main, .helper, .counter, .call, .load, .cast, .zero]
  mem_nodes := by decide
  nodup_nodes := by decide
  kind
    | .main => .function { name := "main" } [] (some [.call]) []
    | .helper =>
      .function { name := "helper", linkage := .internalLinkage } [.noInline] (some [.load]) []
    | .counter => .globalVariable { name := "counter", linkage := .internalLinkage } (some .zero)
    | .call => .instruction [.helper]
    | .load => .instruction [.cast]
    | .cast => .constant [.counter]
    | .zero => .constant []

def plainReading : Reading StaticValue Unit where
  op _ := .other "value"
  info _ _ := .variable .void
  denotes _ := none

/-- How many definitions are looked at. -/
def definitionsOf : String → ℕ → ℕ
  | _, 0 => 0
  | "main", n + 1 => 1 + definitionsOf "helper" n
  | "helper", n + 1 => 1 + definitionsOf "counter" n
  | "counter", _ + 1 => 1
  | _, _ + 1 => 0

theorem readsStatic_namesUnique : readsStatic.NamesUnique := namesUnique_of_names (by decide)

theorem interpret_countCalls {κ δ : Type} {d : Def κ δ Op GlobalInfo} {f : Sym κ → ℕ} :
    d.interpret countCalls f = 1 + (d.body.map fun i => (i.refs.map fun r => f r.sym).sum).sum := by
  simp [Def.interpret, countCalls, Function.comp_def]

theorem readsStatic_meansProgram :
    readsStatic.MeansProgram plainReading countCalls definitionsOf := by
  have hmain : (readsStatic.program plainReading).definition? (.ext .main)
      = some ⟨.variable .void, [⟨.other "value", []⟩, ⟨.other "value", [⟨.ext .helper, none⟩]⟩]⟩ :=
    rfl
  have hhelper : (readsStatic.program plainReading).definition? (.ext .helper)
      = some ⟨.variable .void, [⟨.other "value", []⟩, ⟨.other "value", [⟨.ext .counter, none⟩]⟩]⟩ :=
    rfl
  have hcounter : (readsStatic.program plainReading).definition? (.ext .counter)
      = some ⟨.variable .void, [⟨.other "value", []⟩]⟩ := rfl
  have hmeaning : ∀ n, (readsStatic.program plainReading).meaning countCalls
        (readsStatic.declared countCalls definitionsOf) n (.ext .counter)
          = definitionsOf "counter" n
      ∧ (readsStatic.program plainReading).meaning countCalls
        (readsStatic.declared countCalls definitionsOf) n (.ext .helper)
          = definitionsOf "helper" n
      ∧ (readsStatic.program plainReading).meaning countCalls
        (readsStatic.declared countCalls definitionsOf) n (.ext .main)
          = definitionsOf "main" n := by
    intro n
    induction n with
    | zero => simp [Module.meaning, definitionsOf, countCalls]
    | succ n ih =>
      obtain ⟨ihcounter, ihhelper, -⟩ := ih
      simp [Module.meaning_succ hmain, Module.meaning_succ hhelper, Module.meaning_succ hcounter,
        interpret_countCalls, definitionsOf, ihcounter, ihhelper]
  intro U data hU n
  obtain ⟨hcounter', hhelper', hmain'⟩ := hmeaning (n + 1)
  cases U with
  | main =>
    cases hU
    exact hmain'
  | helper =>
    cases hU
    exact hhelper'
  | counter =>
    cases hU
    exact hcounter'
  | _ => cases hU

/-- The static function is private in the copy, and the variable a declaration. -/
theorem cleanModule_soundNames_static : ∃ M', cleanModule readsStatic extractOnly .main = .ok M'
    ∧ (M'.toModule plainReading).SoundNames countCalls definitionsOf := by
  have h : cleanModule readsStatic extractOnly .main = .ok _ := rfl
  exact ⟨_, h, (cleanModule_soundNames extractOnly_documented extractOnly_keepReferences
    readsStatic_namesUnique (fun _ _ _ => rfl) readsStatic_meansProgram h).1⟩

end Samples

end EasyJit.Embed
