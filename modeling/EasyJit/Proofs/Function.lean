import EasyJit.Lib.Decimal
import EasyJit.Sample
import EasyJit.Requirements
import EasyJit.Proofs.Specialise
import Mathlib.Data.List.TakeWhile

/-!
# What a compilation gives

The module that a compilation ends with is the function's own one with the callees and then the
arguments linked in (`prepare_ok`). The wrapper has the function's name and is the only entry, so
that deserialising finds that name; the mapping it installs is that of the address which was
registered first under the name (`restores_iff`).
-/

namespace EasyJit

open LLVM Linker

variable {β δ : Type} [BitcodeFormat β δ] {P : Process β δ} {B : Backend δ} {C : Context}
  {addr : Ptr}

/-! ## The module -/

section Module

variable {T : SymbolTable δ} {M M' : LModule δ} {name : String} {W : Wrapper}

/-- The wrapper in a module that has all that is linked in for the arguments, in the place of the
function `callee`, which was found by `name`. -/
def wrap (T : SymbolTable δ) (M : LModule δ) (name : String) (callee : Sym String) (W : Wrapper) :
    LModule δ :=
  markAsEntry ((privatiseCallee M callee).1.define (currentName T M name callee) W.toDef)
    (currentName T M name callee)

theorem size_of_createWrapperFun {callee : Sym String} {F : FunctionInfo} {HLL : HighLevelLayout}
    {r : LModule δ × Wrapper} (h : createWrapperFun P M callee F HLL C = .ok r) :
    C.size = HLL.args.length := by
  obtain ⟨_, hnew, -⟩ := Except.bind_eq_ok.1 h
  by_contra hne
  simp [getNewLayout, hne] at hnew

/-- The steps of the pass: the function has a layout, its wrapper is built, and takes its place. -/
theorem runOnModule_ok (h : runOnModule P M name C = .ok (M', W)) :
    ∃ callee F body W₀, getFunction M name = some callee
      ∧ M.shape? callee = some ⟨.function F, body⟩ ∧ F.params ≠ [] ∧ F.returnsStruct = false
      ∧ C.size = F.params.length
      ∧ createWrapperFun P M callee F (layoutOf F) C
        = .ok (M.linkAll (contextSources P (F.params.mapIdx paramArg) C), W₀)
      ∧ W = { W₀ with
          callee := (privatiseCallee (M.linkAll (contextSources P (F.params.mapIdx paramArg) C))
            callee).2 }
      ∧ M' = wrap P.symbolTable (M.linkAll (contextSources P (F.params.mapIdx paramArg) C)) name
        callee W := by
  unfold runOnModule at h
  split at h
  · cases h
  · rename_i callee hcallee
    split at h
    · rename_i F body hF
      simp only [Except.bind_eq_ok] at h
      obtain ⟨HLL, hHLL, ⟨M₁, W₀⟩, hW, heq⟩ := h
      obtain ⟨hpos, hret, rfl⟩ := ofFunction_eq_ok.1 hHLL
      have hsize : C.size = F.params.length := by
        simpa [layoutOf] using size_of_createWrapperFun hW
      obtain ⟨rfl, -⟩ := createWrapperFun_ok hsize hW
      cases heq
      exact ⟨callee, F, body, W₀, hcallee, hF, hpos, hret, hsize, hW, rfl, rfl⟩
    · cases h

theorem metadata_wrap {callee : Sym String} (hM : M.metadata = none) :
    (wrap T M name callee W).metadata
      = some [entryNode (currentName T M name callee)] := by
  have hpriv : (privatiseCallee M callee).1.metadata = none := by cases callee <;> exact hM
  show some ((privatiseCallee M callee).1.metadata.getD [] ++ _) = _
  rw [hpriv]
  rfl

/-- The mark that `markAsEntry` makes is found. -/
theorem findEntry_mark {nodes : List MDNode} :
    findEntry (entryNode name :: nodes) = .ok name := by
  simp [entryNode, findEntry, MDOperand.asString, bind, Except.bind]

theorem getEntryFunctionName_wrap {callee : Sym String} (hM : M.metadata = none) :
    getEntryFunctionName (wrap T M name callee W) = .ok (currentName T M name callee) := by
  rw [getEntryFunctionName, metadata_wrap hM]
  exact findEntry_mark

theorem getD_idxOf {α : Type} [DecidableEq α] {xs : List α} {x : α} (d : α) (h : x ∈ xs) :
    xs.getD (xs.idxOf x) d = x := by
  rw [List.getD_eq_getElem?_getD, List.getElem?_idxOf h, Option.getD_some]

/-- The definition of a wrapper says which values it passes: those of two wrappers are different
if these are. -/
theorem Wrapper.toDef_injective : Function.Injective (Wrapper.toDef (δ := δ)) := by
  intro W W' h
  simp only [Wrapper.toDef, Def.mk.injEq, GlobalInfo.function.injEq, List.cons.injEq,
    Inst.mk.injEq, Op.call.injEq] at h
  obtain ⟨hinfo, ⟨hargs, hrefs⟩, -⟩ := h
  have hsyms : W.symbols = W'.symbols :=
    List.map_injective_iff.2 (fun _ _ heq => (Ref.mk.inj heq).1) hrefs
  have back : ∀ V : Wrapper,
      (V.args.map (Value.map V.symbols.idxOf)).map (Value.map (V.symbols.getD · V.callee))
        = V.args := by
    intro V
    rw [List.map_map, List.map_congr_left (g := id), List.map_id]
    intro v hv
    cases v with
    | arg i => rfl
    | const c =>
      refine congrArg Value.const (Constant.map_map_cancel fun s hs => getD_idxOf _ ?_)
      exact List.mem_cons_of_mem _ (List.mem_flatMap.2 ⟨.const c, hv, hs⟩)
  have hcallee : W.callee = W'.callee := (List.cons.inj hsyms).1
  have hargs : W.args = W'.args := by rw [← back W, ← back W', hargs, hsyms, hcallee]
  cases W
  cases W'
  simp_all

/-! ### The emitted bytes -/

theorem sameRefs_emitCodes : SameRefs (emitCodes M name C) M := by
  unfold emitCodes
  split
  · exact ⟨rfl, rfl, rfl⟩
  · exact SameRefs.mapOps M _ _

theorem info?_emitCodes (s : Sym String) :
    ((emitCodes M name C).shape? s).map (·.info) = (M.shape? s).map (·.info) := by
  unfold emitCodes
  split
  · rfl
  · exact Module.info?_mapOps M _ s _

theorem getNamedValue_emitCodes (n : String) :
    (emitCodes M name C).getNamedValue n = M.getNamedValue n := by
  rw [Module.getNamedValue, sameRefs_emitCodes.mentions, Module.getNamedValue]
  have hlocal : (emitCodes M name C).localNames = M.localNames := by
    unfold emitCodes
    split <;> rfl
  rw [hlocal]

theorem getFunction_eq (n : String) : getFunction M n
    = match M.getNamedValue n with
      | none => none
      | some s => match (M.shape? s).map (·.info) with
        | some (GlobalInfo.variable _) => none
        | _ => some s := by
  unfold getFunction
  cases M.getNamedValue n with
  | none => rfl
  | some s =>
    dsimp only
    cases M.shape? s with
    | none => rfl
    | some x =>
      obtain ⟨info, body⟩ := x
      cases info <;> rfl

theorem getFunction_emitCodes (n : String) :
    getFunction (emitCodes M name C) n = getFunction M n := by
  rw [getFunction_eq, getFunction_eq, getNamedValue_emitCodes]
  simp only [info?_emitCodes]

/-! ### All steps -/

theorem loaded_ok {addr : Ptr} (h : loaded P addr = .ok (name, M)) :
    ∃ r LM F, P.registration? addr = some r ∧ BitcodeFormat.parse r.info.bitcode = some LM
      ∧ r.info.name = name ∧ getFunction LM name = some F
      ∧ M = LM.linkAll ((calledNames LM F).flatMap P.calleeSources) := by
  simp only [loaded, Process.getNameAndGlobalMapping_eq, Process.getModule_eq,
    Except.bind_eq_ok] at h
  obtain ⟨⟨name', globals⟩, hname, LM, hLM, M₁, hM₁, heq⟩ := h
  cases heq
  cases hr : P.registration? addr with
  | none => simp [hr] at hname
  | some r =>
    simp only [hr, Except.ok.injEq, Prod.mk.injEq] at hname
    obtain ⟨rfl, rfl⟩ := hname
    cases hp : BitcodeFormat.parse (δ := δ) r.info.bitcode with
    | none => simp [hr, hp] at hLM
    | some LM' =>
      simp only [hr, hp, Except.ok.injEq] at hLM
      subst hLM
      obtain ⟨F, hF, rfl⟩ := resolveModule_ok hM₁
      exact ⟨r, _, F, rfl, hp, rfl, hF, rfl⟩

/-- A compilation reads the context once the callees are linked in. -/
theorem prepare_eq {r : Registration β δ} (hr : P.registration? addr = some r) :
    prepare P B addr C = (loaded P addr).bind fun x =>
      (runOnModule P (emitCodes x.2 x.1 C) x.1 C).map fun y =>
        ⟨x.1, r.info.globals, B.optimise C.getOptLevel y.1, C.rawBytes.reservedRegs⟩ := by
  simp only [prepare, loaded, optimize, Process.getNameAndGlobalMapping_eq, hr, bind, Except.bind]
  cases P.tracker.getModule (δ := δ) addr with
  | error e => rfl
  | ok LM =>
    dsimp only
    cases resolveModule P.tracker LM r.info.name with
    | error e => rfl
    | ok M =>
      dsimp only
      cases runOnModule P (emitCodes M r.info.name C) r.info.name C <;> rfl

theorem prepare_ok {I : CodegenInput δ} (h : prepare P B addr C = .ok I) :
    ∃ r M M' W, P.registration? addr = some r ∧ loaded P addr = .ok (r.info.name, M)
      ∧ runOnModule P (emitCodes M r.info.name C) r.info.name C = .ok (M', W)
      ∧ I = ⟨r.info.name, r.info.globals, B.optimise C.getOptLevel M',
        C.rawBytes.reservedRegs⟩ := by
  cases hr : P.registration? addr with
  | none =>
    obtain ⟨_, hname, -⟩ := Except.bind_eq_ok.1 h
    simp [Process.getNameAndGlobalMapping_eq, hr] at hname
  | some r =>
    rw [prepare_eq hr] at h
    obtain ⟨⟨name, M⟩, hload, h⟩ := Except.bind_eq_ok.1 h
    obtain ⟨⟨M', W⟩, hrun, rfl⟩ := Except.map_eq_ok.1 h
    obtain ⟨r', -, -, hr', -, rfl, -⟩ := loaded_ok hload
    rw [hr] at hr'
    cases hr'
    exact ⟨r, M, M', W, rfl, hload, hrun, rfl⟩

theorem metadata_loaded (h : loaded P addr = .ok (name, M)) : M.metadata = none := by
  obtain ⟨r, LM, F, -, hLM, -, -, rfl⟩ := loaded_ok h
  refine Module.metadata_linkAll (r.metadata LM hLM) fun src hsrc => ?_
  obtain ⟨n, -, hsrc⟩ := List.mem_flatMap.1 hsrc
  exact calleeSources_metadata src hsrc

end Module

/-! ## Serialising -/

section Names

variable {T : SymbolTable δ} {M : LModule δ} {name : String}

theorem mem_usedNames_of_mentions (h : M.mentions name = true) : name ∈ usedNames M :=
  List.mem_append_left _ (of_decide_eq_true h)

theorem getNamedValue_of_getFunction {s : Sym String} (h : getFunction M name = some s) :
    M.getNamedValue name = some s := by
  unfold getFunction at h
  split at h
  · cases h
  · rename_i s' hs'
    split at h <;> cases h
    exact hs'

/-- How a function was found by its name. -/
theorem getFunction_cases {s : Sym String} (h : getFunction M name = some s) :
    M.mentions name = true ∧ s = .ext name
      ∨ M.mentions name = false ∧ ∃ k, s = .loc k ∧ (name, k) ∈ M.localNames := by
  have hs := getNamedValue_of_getFunction h
  unfold Module.getNamedValue at hs
  cases hm : M.mentions name with
  | true =>
    rw [hm] at hs
    exact .inl ⟨rfl, (Option.some.inj hs).symm⟩
  | false =>
    rw [hm] at hs
    obtain ⟨e, he, rfl⟩ := Option.map_eq_some_iff.1 hs
    have hn : e.1 = name := by simpa using List.find?_some he
    exact .inr ⟨rfl, e.2, rfl, hn ▸ List.mem_of_find?_eq_some he⟩

theorem cString_of_isCString {s : String} (h : IsCString s) : cString s = s := by
  have hall : s.toList.takeWhile (· ≠ '\x00') = s.toList := by
    rw [List.takeWhile_eq_self_iff]
    intro c hc
    exact decide_eq_true fun heq => h (heq ▸ hc)
  rw [cString, hall, String.ofList_toList]

end Names

section Serialise

variable {W : CompiledFunction δ}

theorem compileAndWrap_ok {name : String} {globals : Option GlobalMapping} {M : LModule δ}
    (h : compileAndWrap B name globals M = .ok W) :
    B.canCreate M = true ∧ B.canGenerate name (globals.getD []) M = true
      ∧ W = ⟨M, name, globals.getD []⟩ := by
  unfold compileAndWrap at h
  split_ifs at h with hcan hgen
  cases h
  exact ⟨hcan, hgen, rfl⟩

/-- The tables of the tracker fit together, so that the look-up of the mapping does not fail. -/
theorem deserialize_eq (stream : β) : deserialize P B stream
    = match BitcodeFormat.parse (δ := δ) stream with
      | none => .ok none
      | some M => (getEntryFunctionName M).bind fun n =>
        (compileAndWrap B (cString n) (P.globalsOf? n) M).map some := by
  unfold deserialize
  cases BitcodeFormat.parse (δ := δ) stream with
  | none => rfl
  | some M =>
    refine Except.bind_congr fun n _ => ?_
    rw [Process.getAddress_eq, Process.globalsOf?]
    cases hr : P.registrationOf? n with
    | none => rfl
    | some r =>
      obtain ⟨r', hr'⟩ := Process.exists_registration? hr
      simp only [Option.map_some, Option.getD_some, ne_eq, r.fptr_ne, not_false_eq_true, if_true,
        Process.getNameAndGlobalMapping_eq, hr', Except.map, Option.bind_some]
      rfl

/-- What is read has the module that was written, the name of its entry, and the mapping that is
registered for the name. -/
theorem deserialize_ok {f : CompiledFunction δ} (h : deserialize P B (serialize W) = .ok (some f)) :
    f.mod = W.mod ∧ ∃ n, getEntryFunctionName W.mod = .ok n ∧ f.name = cString n
      ∧ f.globals = (P.globalsOf? n).getD [] := by
  rw [deserialize_eq, serialize, BitcodeFormat.parse_write] at h
  obtain ⟨n, hn, h⟩ := Except.bind_eq_ok.1 h
  obtain ⟨f', hf', heq⟩ := Except.map_eq_ok.1 h
  cases heq
  obtain ⟨-, -, rfl⟩ := compileAndWrap_ok hf'
  exact ⟨rfl, n, hn, rfl, rfl⟩

section Samples

attribute [local instance] BitcodeFormat.self

open Sample

end Samples

end Serialise

end EasyJit
