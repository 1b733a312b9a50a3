import EasyJit.Sample
import EasyJit.Proofs.Wrapper

/-!
# When specialising is right

A function without parameters has no first parameter to look at, a second occurrence of a
placeholder is not found, and the one round too many for a struct return reads past the end of
the parameters. Else the wrapper calls the function with the right values
(`specialises_iff`, `laysOut_iff`).
-/

namespace EasyJit

open LLVM Linker

variable {β δ : Type} [BitcodeFormat β δ] {P : Process β δ} {C : Context} {F : FunctionInfo}
  {M : LModule δ} {callee : Sym String}

theorem hasStructRetAttr_eq_ok_false :
    hasStructRetAttr F = .ok false ↔ F.params ≠ [] ∧ F.returnsStruct = false := by
  unfold hasStructRetAttr FunctionInfo.returnsStruct
  cases F.params <;> simp

theorem ofFunction_eq_ok {HLL : HighLevelLayout} : HighLevelLayout.ofFunction F = .ok HLL
    ↔ F.params ≠ [] ∧ F.returnsStruct = false ∧ HLL = layoutOf F := by
  rw [HighLevelLayout.ofFunction_eq, ← and_assoc, ← hasStructRetAttr_eq_ok_false]
  split
  · rename_i h
    simp [h, layoutOf, eq_comm]
  · rename_i h
    simp [h]

/-- The function that is called is the one there was, where no module takes its name. -/
theorem shape?_callee {args : List HighLevelArg} {x : LShape δ} (hF : M.shape? callee = some x)
    (hkeep : ∀ src ∈ contextSources P args C, ∀ n ∈ callee.name?, src.mod.defines n = false) :
    (M.linkAll (contextSources P args C)).shape? callee = M.shape? callee := by
  rw [hF]
  refine Module.shape?_linkAll_of_not_touches hF fun n hn src hsrc => ?_
  rintro (hd | rfl)
  · rw [hkeep src hsrc n hn] at hd
    cases hd
  · have := contextSources_defines src hsrc
    rw [hkeep src hsrc _ hn] at this
    cases this

/-! ## Without a struct return -/

section Runs

variable {N : ℕ} {M' : LModule δ} {vs : List LValue}

theorem wrapperParam_of_dense (hN : ∀ k, k ∈ C.placeholders ↔ k < N) {k : ℕ} (hk : k ≤ N) :
    C.wrapperParam k = k :=
  Context.wrapperParam_eq_self fun j hj => (hN j).2 (Nat.lt_of_lt_of_le hj hk)

theorem firstGapless_of_dense (hN : ∀ k, k ∈ C.placeholders ↔ k < N) : C.FirstGapless :=
  fun _ _ j hj _ i hi => (hN i).2 (Nat.lt_trans hi ((hN j).1 hj))

/-- The values are right exactly when they are in every run. -/
theorem callsWith_iff_eval (hN : ∀ k, k ∈ C.placeholders ↔ k < N)
    (hlen : vs.length = F.params.length) : CallsWith P M' C F.params vs ↔
      ∀ (V : Type) (interp : Constant (Target δ) → V) (a : List V), a.length = N →
        ∀ (i : ℕ) ty arg v, F.params[i]? = some ty → C.argumentMapping[i]? = some arg →
          vs[i]? = some v →
          ∃ x, v.eval (fun c => interp (c.map M'.shape?)) a = some x ∧ match arg.forwardIdx with
            | some k => a[k]? = some x
            | none => ∃ t, captured P (paramArg i ty) arg = .ok [t] ∧ x = interp t := by
  have hlt {i k : ℕ} (h : C.argumentMapping[i]? = some (.forward k)) : k < N :=
    (hN k).1 (Context.mem_placeholders.2 ⟨i, h⟩)
  constructor
  · rintro ⟨-, h⟩ V interp a ha i ty arg v hty harg hv
    have hval := h i ty arg v hty harg hv
    unfold IsValueFor at hval
    cases hf : arg.forwardIdx with
    | some k =>
      rw [hf] at hval
      rw [Argument.forwardIdx_eq_some.1 hf] at harg
      have hk : k < a.length := ha ▸ hlt harg
      rw [hval, wrapperParam_of_dense hN (hlt harg).le]
      exact ⟨a[k], List.getElem?_eq_getElem hk, List.getElem?_eq_getElem hk⟩
    | none =>
      rw [hf] at hval
      obtain ⟨c, rfl, hcap⟩ := hval
      exact ⟨_, rfl, _, hcap, rfl⟩
  · intro h
    refine ⟨hlen, fun i ty arg v hty harg hv => ?_⟩
    unfold IsValueFor
    cases hf : arg.forwardIdx with
    | some k =>
      rw [Argument.forwardIdx_eq_some.1 hf] at harg
      -- a run that tells the parameters apart, from one another and from constants
      obtain ⟨x, hx, hk⟩ := h (Option ℕ) (fun _ => none) ((List.range N).map some) (by simp) i ty
        _ v hty harg hv
      simp only [Argument.forwardIdx, List.getElem?_map, List.getElem?_range (hlt harg),
        Option.map_some, Option.some.injEq] at hk
      subst hk
      dsimp only
      rw [wrapperParam_of_dense hN (hlt harg).le]
      cases v with
      | const c => simp [Value.eval] at hx
      | arg j =>
        simp only [Value.eval, List.getElem?_map, Option.map_eq_some_iff] at hx
        obtain ⟨j', hj', heq⟩ := hx
        cases heq
        rw [(List.getElem?_eq_some_iff.1 hj').2.symm]
        simp
    | none =>
      obtain ⟨x, hx, ht⟩ := h (Option (Constant (Target δ))) some (List.replicate N none) (by simp)
        i ty arg v hty harg hv
      rw [hf] at ht
      obtain ⟨t, hcap, rfl⟩ := ht
      cases v with
      | const c =>
        simp only [Value.eval, Option.some.injEq] at hx
        exact ⟨c, rfl, by rw [hx, hcap]⟩
      | arg j =>
        rw [Value.eval, List.getElem?_replicate] at hx
        split at hx <;> cases hx

end Runs

/-- The wrapper of a function that returns no struct is right exactly when the function has
parameters, no placeholder occurs twice, every captured argument is a constant of the type of its
parameter, and no module that is linked in takes the function's name. -/
theorem specialises_iff {N : ℕ} {body : List (Op × List (Option δ))}
    (hF : M.shape? callee = some ⟨.function F, body⟩) (hret : F.returnsStruct = false)
    (hsize : C.size = F.params.length) (hN : ∀ k, k ∈ C.placeholders ↔ k < N) :
    Specialises P M callee F C N ↔ F.params ≠ [] ∧ C.placeholders.Nodup
      ∧ Materialisable P C F.params ∧ KeepsCallee P C F.params callee := by
  constructor
  · rintro ⟨HLL, M', W, hHLL, hW, -, -, -, hlen, hruns⟩
    obtain ⟨hpos, -, rfl⟩ := ofFunction_eq_ok.1 hHLL
    have hcalls := (callsWith_iff_eval hN hlen).2 hruns
    obtain ⟨hnodup, -, hmat, hkeep⟩ :=
      (createWrapperFun_callsWith_iff hpos hsize).1 ⟨M', W, hW, hcalls⟩
    exact ⟨hpos, hnodup, hmat, hkeep⟩
  · rintro ⟨hpos, hnodup, hmat, hkeep⟩
    obtain ⟨M', W, hW, hcalls⟩ := (createWrapperFun_callsWith_iff (M := M) hpos hsize).2
      ⟨hnodup, firstGapless_of_dense hN, hmat, hkeep⟩
    obtain ⟨rfl, hcallee, hparams, -, -, -⟩ := createWrapperFun_ok hsize hW
    have hnum : W.info.params.length = N := by
      rw [hparams, wrapperTypes_length hsize, numNewArgs_eq hN, wrapperParam_of_dense hN le_rfl]
    exact ⟨_, _, W, ofFunction_eq_ok.2 ⟨hpos, hret, rfl⟩, hW, hnum, hcallee,
      shape?_callee hF hkeep, hcalls.1, (callsWith_iff_eval hN hcalls.1).1 hcalls⟩

section Runs

attribute [local instance] BitcodeFormat.self

open Sample

/-- `f(x, 5, y)` as a function of `y` and `x`. -/
theorem specialises_swapped : Specialises (process (δ := Unit) [])
    (define .empty 0 "f" [.int 32, .int 64, .fp .double] []) (.ext "f")
    (function 0 "f" [.int 32, .int 64, .fp .double])
    { argumentMapping := [.forward 1, .int 5, .forward 0] } 2 := by
  have hN : ∀ k, k ∈ Context.placeholders { argumentMapping := [.forward 1, .int 5, .forward 0] }
      ↔ k < 2 := by
    intro k
    show k ∈ [1, 0] ↔ k < 2
    simp only [List.mem_cons, List.not_mem_nil, or_false]
    omega
  have hF : Module.shape? (define .empty 0 "f" [.int 32, .int 64, .fp .double] [] : LModule Unit)
      (.ext "f") = some ⟨.function (function 0 "f" [.int 32, .int 64, .fp .double]), []⟩ := rfl
  refine (specialises_iff hF rfl rfl hN).2 ⟨by decide, by decide, ?_, ?_⟩
  · intro i ty arg hty harg hf
    match i with
    | 0 | 2 => cases harg; cases hf
    | 1 =>
      cases hty
      cases harg
      exact ⟨.int 64 5, rfl, rfl⟩
    | i + 3 => cases hty
  · intro src hsrc
    cases hsrc

/-- `jit(foo, _1, true, 2.0f, _1)`. -/
theorem not_specialises_repeated :
    let F := function 0 "foo" [.int 32, .int 1, .fp .float, .int 32]
    let C : Context :=
      { argumentMapping := [.forward 0, .int 1, .float ⟨0x4000000000000000⟩, .forward 0] }
    let M : LModule Unit := define .empty 0 "foo" F.params []
    M.shape? (.ext "foo") = some ⟨.function F, []⟩ ∧ F.returnsStruct = false
      ∧ C.size = F.params.length ∧ (∀ k, k ∈ C.placeholders ↔ k < 1)
      ∧ ¬ Specialises (process []) M (.ext "foo") F C 1 := by
  refine ⟨rfl, rfl, rfl, fun k => ?_, ?_⟩
  · show k ∈ [0, 0] ↔ k < 1
    simp
  · rintro ⟨HLL, M', W, hHLL, hW, -⟩
    cases hHLL
    cases hW

end Runs

/-! ## With and without one -/

theorem restArgs_eq (hret : F.returnsStruct = false) : F.restArgs = F.params.mapIdx paramArg := by
  rw [FunctionInfo.restArgs, FunctionInfo.restParams, hret]
  rfl

/-- A layout is right exactly when the function has parameters and returns no struct, and then
the wrapper is as in `createWrapperFun_callsWith_iff`. -/
theorem laysOut_iff : LaysOut P M callee F C ↔ F.params ≠ [] ∧ F.returnsStruct = false
    ∧ (C.size = F.params.length → C.placeholders.Nodup ∧ C.FirstGapless
      ∧ Materialisable P C F.params ∧ KeepsCallee P C F.params callee) := by
  have hrest (hret : F.returnsStruct = false) : F.restParams = F.params := by
    simp [FunctionInfo.restParams, hret]
  constructor
  · rintro ⟨HLL, hHLL, -, hcalls⟩
    obtain ⟨hpos, hret, rfl⟩ := ofFunction_eq_ok.1 hHLL
    refine ⟨hpos, hret, fun hsize => ?_⟩
    rw [hrest hret] at hcalls
    obtain ⟨M', W, vs, hW, hvs, hcalls⟩ := hcalls hsize
    simp only [hret, Bool.false_eq_true, if_false] at hvs
    subst hvs
    exact (createWrapperFun_callsWith_iff hpos hsize).1 ⟨M', W, hW, hcalls⟩
  · rintro ⟨hpos, hret, h⟩
    refine ⟨layoutOf F, ofFunction_eq_ok.2 ⟨hpos, hret, rfl⟩, (restArgs_eq hret).symm,
      fun hsize => ?_⟩
    rw [hrest hret] at hsize ⊢
    obtain ⟨M', W, hW, hcalls⟩ :=
      (createWrapperFun_callsWith_iff (M := M) hpos hsize).2 (h hsize)
    exact ⟨M', W, W.args, hW, by simp [hret], hcalls⟩

section Sret

attribute [local instance] BitcodeFormat.self

open Sample

/-- A function that returns a struct through its first parameter. -/
theorem not_laysOut_structReturn : ¬ LaysOut (process (δ := Unit) []) .empty (.ext "build")
    { function 0 "build" [.ptr (.struct false [.int 32, .int 32]), .int 32] with
      paramAttrs := [[.structRet]] } { argumentMapping := [.forward 0] } := by
  rintro ⟨HLL, hHLL, -⟩
  cases hHLL

end Sret

end EasyJit
