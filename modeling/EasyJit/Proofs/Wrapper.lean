import EasyJit.Proofs.InlineArgs
import EasyJit.Proofs.Layout

/-!
# The wrapper

For a function without a struct return whose parameters are the arguments of the context,
`CreateWrapperFun` gives the call the context asks for exactly when no placeholder occurs twice,
every captured argument is a constant of the type of its parameter, and no module that is linked
in defines the function's name (`createWrapperFun_callsWith_iff`).
-/

namespace EasyJit

open LLVM Linker

variable {β δ : Type} [BitcodeFormat β δ] {P : Process β δ} {C : Context} {F : FunctionInfo}
  {FHLL wrapperHLL : HighLevelLayout} {params : List Ty} {S S' : LinkState δ} {vs : List LValue}
  {i : ℕ} {ty : Ty} {arg : Argument}

/-! ## One value for each argument -/

/-- A captured argument that is one parameter is one constant. -/
theorem captured_length {ts : List (Constant (Target δ))} (hf : arg.forwardIdx = none)
    (h : captured P (paramArg i ty) arg = .ok ts) : ts.length = 1 := by
  cases arg with
  | forward k => cases hf
  | int val | float val =>
    simp only [captured, Except.bind_eq_ok] at h
    obtain ⟨_, -, t, -, h⟩ := h
    cases h
    rfl
  | ptr p =>
    simp only [captured, Except.bind_eq_ok] at h
    obtain ⟨_, -, t, -, o, -, h⟩ := h
    cases h
    rfl
  | struct data =>
    simp only [captured] at h
    split at h
    · simp only [Except.bind_eq_ok] at h
      obtain ⟨_, -, t, -, h⟩ := h
      cases h
      rfl
    · simp only [paramArg, structValues, Except.bind_eq_ok] at h
      obtain ⟨⟨o, n⟩, -, h⟩ := h
      cases o with
      | none => cases h
      | some c =>
        obtain ⟨_, heq, h⟩ := Except.bind_eq_ok.1 h
        cases heq
        cases h
        rfl
  | module fn =>
    simp only [captured] at h
    split at h
    · cases h
    · obtain ⟨_, -, h⟩ := Except.bind_eq_ok.1 h
      cases h
      rfl

theorem Passed.length {M : LModule δ}
    (h : Passed P FHLL wrapperHLL M (paramArg i ty, arg) vs) : vs.length = 1 := by
  unfold Passed at h
  split at h
  · unfold getForwardArgs at h
    split at h <;> cases h
    rfl
  · rename_i hf
    obtain ⟨cs, rfl, -, hcap⟩ := h
    have := captured_length hf hcap
    rwa [List.length_map] at this ⊢

theorem flatten_of_length_one {α : Type} : ∀ {L : List (List α)}, (∀ l ∈ L, l.length = 1) →
    ∃ as : List α, L = as.map ([·]) ∧ L.flatten = as
  | [], _ => ⟨[], rfl, rfl⟩
  | l :: L, h => by
    obtain ⟨a, rfl⟩ := List.length_eq_one_iff.1 (h l List.mem_cons_self)
    obtain ⟨as, rfl, hflat⟩ := flatten_of_length_one fun l hl => h l (List.mem_cons_of_mem _ hl)
    exact ⟨a :: as, rfl, by rw [List.flatten_cons, hflat]; rfl⟩

/-- Where each argument is one parameter, one value is passed for each. -/
theorem getInlineArgsFrom_values (hsize : C.size = params.length)
    (h : getInlineArgsFrom P FHLL wrapperHLL (params.mapIdx paramArg) C.argumentMapping S
      = .ok (S', vs)) :
    S' = S.linkSources (contextSources P (params.mapIdx paramArg) C) ∧ vs.length = params.length
      ∧ ∀ i ty arg v, params[i]? = some ty → C.argumentMapping[i]? = some arg →
        vs[i]? = some v → Passed P FHLL wrapperHLL S'.mod (paramArg i ty, arg) [v] := by
  obtain ⟨hS, -, vss, rfl, hvss⟩ := getInlineArgsFrom_ok h
  have hone : ∀ l ∈ vss, l.length = 1 := by
    intro l hl
    obtain ⟨k, hk, rfl⟩ := List.getElem_of_mem hl
    have hp := hvss.get (hvss.length_eq ▸ hk) hk
    simp only [List.get_eq_getElem, List.getElem_zip, List.getElem_mapIdx] at hp
    exact hp.length
  obtain ⟨as, rfl, hflat⟩ := flatten_of_length_one hone
  have hlen : as.length = params.length := by
    have := hvss.length_eq
    simp only [List.length_zip, List.length_mapIdx, List.length_map] at this
    have : C.argumentMapping.length = params.length := hsize
    omega
  rw [hflat]
  refine ⟨hS, hlen, fun i ty arg v hty harg hv => ?_⟩
  obtain ⟨hi, rfl⟩ := List.getElem?_eq_some_iff.1 hv
  obtain ⟨hip, rfl⟩ := List.getElem?_eq_some_iff.1 hty
  obtain ⟨hia, rfl⟩ := List.getElem?_eq_some_iff.1 harg
  have hp := hvss.get (i := i) (by simp [hip, hia]) (by simpa using hi)
  simpa using hp

/-- Where each argument is one parameter and can be passed, all are. -/
theorem exists_getInlineArgsFrom (hsize : C.size = params.length)
    (h : ∀ (i : ℕ) ty arg, params[i]? = some ty → C.argumentMapping[i]? = some arg →
      CanPass P FHLL wrapperHLL (paramArg i ty, arg)) (S : LinkState δ) :
    ∃ S' vs, getInlineArgsFrom P FHLL wrapperHLL (params.mapIdx paramArg) C.argumentMapping S
      = .ok (S', vs) := by
  have hle : C.argumentMapping.length ≤ (params.mapIdx paramArg).length := by
    rw [List.length_mapIdx]
    exact Nat.le_of_eq hsize
  have hcan : ∀ x ∈ (params.mapIdx paramArg).zip C.argumentMapping,
      CanPass P FHLL wrapperHLL x := by
    intro x hx
    obtain ⟨i, hi, rfl⟩ := List.getElem_of_mem hx
    simp only [List.length_zip, List.length_mapIdx, Nat.lt_min] at hi
    simp only [List.getElem_zip, List.getElem_mapIdx]
    exact h i _ _ (List.getElem?_eq_getElem hi.1) (List.getElem?_eq_getElem hi.2)
  obtain ⟨⟨S', vs⟩, hargs⟩ := getInlineArgsFrom_of_canPass hle hcan S
  exact ⟨S', vs, hargs⟩

omit [BitcodeFormat β δ] in
/-- The values have the types of the parameters when each has the type of its own. -/
theorem map_type?_eq_iff {tys : List Ty} (hlen : vs.length = params.length) :
    vs.map (Value.type? tys) = params.map some ↔ ∀ (i : ℕ) ty v, params[i]? = some ty →
      vs[i]? = some v → v.type? tys = some ty := by
  constructor
  · intro h i ty v hty hv
    have hi := congrArg (·[i]?) h
    simpa [hv, hty] using hi
  · intro h
    refine List.ext_getElem (by simp [hlen]) fun i hi hi' => ?_
    rw [List.length_map] at hi hi'
    rw [List.getElem_map, List.getElem_map]
    exact h i _ _ (List.getElem?_eq_getElem hi') (List.getElem?_eq_getElem hi)

theorem Passed.isValueFor_captured {M : LModule δ} {v : LValue} (hf : arg.forwardIdx = none)
    (h : Passed P FHLL wrapperHLL M (paramArg i ty, arg) [v]) :
    ∃ c : LConstant, v = .const c ∧ captured P (paramArg i ty) arg = .ok [c.map M.shape?] := by
  unfold Passed at h
  rw [hf] at h
  obtain ⟨cs, hvs, -, hcap⟩ := h
  cases cs with
  | nil => cases hvs
  | cons c cs =>
    cases cs with
    | nil =>
      cases hvs
      exact ⟨c, rfl, hcap⟩
    | cons c' cs => cases hvs

/-! ## The call -/

/-- The layout of a function without a struct return. -/
def layoutOf (F : FunctionInfo) : HighLevelLayout := ⟨none, F.params.mapIdx paramArg, F.ret⟩

/-- The layout of its wrapper. -/
def newLayoutOf (C : Context) (F : FunctionInfo) : HighLevelLayout :=
  ⟨none, newArgs C F.params, F.ret⟩

section Call

variable {M M' : LModule δ} {callee : Sym String} {W : Wrapper}

theorem getNewLayout_eq (hsize : C.size = F.params.length) :
    getNewLayout C (layoutOf F) = .ok (newLayoutOf C F) := by
  simp only [getNewLayout, layoutOf, List.length_mapIdx, hsize, ne_eq, not_true_eq_false, if_false]
  rfl

theorem position_lt (hpos : F.params ≠ []) (hsize : C.size = F.params.length) :
    ∀ a ∈ newArgs C F.params, a.position < F.params.length := by
  intro a ha
  obtain ⟨k, hk⟩ := List.mem_iff_getElem?.1 ha
  have hk' : k < numNewArgs C := by
    rw [← newArgs_length F.params]
    exact (List.getElem?_eq_some_iff.1 hk).1
  obtain ⟨b, hb, -, hcases⟩ := newArgs_cases hsize hk'
  rw [hk] at hb
  cases hb
  rcases hcases with h | ⟨-, h⟩
  · exact hsize ▸ (List.getElem?_eq_some_iff.1 h.1).1
  · rw [h]
    exact List.length_pos_iff.2 hpos

theorem exists_remapParamAttributes (hpos : F.params ≠ []) (hsize : C.size = F.params.length)
    (attrs : List (List Attr)) :
    ∃ attrs', remapParamAttributes F (layoutOf F) (newLayoutOf C F) attrs = .ok attrs' := by
  refine Except.exists_foldlM_eq_ok fun a ha attrs => ?_
  have hlt := position_lt hpos hsize a ha
  have hget : (layoutOf F).args[a.position]?
      = some (paramArg a.position F.params[a.position]) := by
    simp [layoutOf, hlt]
  rw [hget]
  exact ⟨_, rfl⟩

/-- The call can be made when the function was not erased and the values have its types. -/
theorem createCall_eq_ok {wrapperParams : List Ty} : createCall S wrapperParams callee F vs = .ok ()
    ↔ (∀ n ∈ callee.name?, ∀ LM ∈ S.linked, LM.defines n = false)
      ∧ vs.map (Value.type? wrapperParams) = F.params.map some := by
  unfold createCall
  cases hn : callee.name? with
  | none => simp
  | some n =>
    simp only [Option.any_some, Option.mem_some_iff, forall_eq']
    by_cases h : S.linked.any (·.defines n) = true
    · simp only [h, if_true, reduceCtorEq, false_iff, not_and]
      intro hall
      obtain ⟨LM, hLM, hd⟩ := List.any_eq_true.1 h
      rw [hall LM hLM] at hd
      cases hd
    · simp only [h, if_false, Bool.false_eq_true]
      simp only [List.any_eq_true, not_exists, not_and, Bool.not_eq_true] at h
      simpa using fun _ => h

/-- The steps of `CreateWrapperFun`, for a function without a struct return. -/
theorem createWrapperFun_ok (hsize : C.size = F.params.length)
    (h : createWrapperFun P M callee F (layoutOf F) C = .ok (M', W)) :
    M' = M.linkAll (contextSources P (F.params.mapIdx paramArg) C) ∧ W.callee = callee
      ∧ W.info.params = (newArgs C F.params).flatMap (·.types)
      ∧ KeepsCallee P C F.params callee
      ∧ W.args.map (Value.type? W.info.params) = F.params.map some
      ∧ getInlineArgsFrom P (layoutOf F) (newLayoutOf C F) (F.params.mapIdx paramArg)
          C.argumentMapping ⟨M, []⟩
        = .ok (LinkState.linkSources ⟨M, []⟩ (contextSources P (F.params.mapIdx paramArg) C),
          W.args) := by
  simp only [createWrapperFun, getNewLayout_eq hsize, getInlineArgs, Except.bind_eq_ok] at h
  obtain ⟨_, heq, ⟨S₁, vs₁⟩, ⟨⟨S₂, vs₂⟩, hargs, hvs⟩, ⟨⟩, hcall, attrs, -, hW⟩ := h
  cases heq
  cases hvs
  cases hW
  obtain ⟨hS, -⟩ := getInlineArgsFrom_values (P := P) hsize hargs
  cases hS
  rw [createCall_eq_ok] at hcall
  refine ⟨LinkState.mod_linkSources, rfl, rfl, ?_, hcall.2, hargs⟩
  intro src hsrc n hn
  exact hcall.1 n hn _ (by simpa using ⟨src, hsrc, rfl⟩)

theorem exists_createWrapperFun (hpos : F.params ≠ []) (hsize : C.size = F.params.length)
    (hkeep : KeepsCallee P C F.params callee)
    (hargs : getInlineArgsFrom P (layoutOf F) (newLayoutOf C F) (F.params.mapIdx paramArg)
      C.argumentMapping ⟨M, []⟩ = .ok (S, vs))
    (htypes : vs.map (Value.type? ((newArgs C F.params).flatMap (·.types)))
      = F.params.map some) :
    ∃ M' W, createWrapperFun P M callee F (layoutOf F) C = .ok (M', W) ∧ W.args = vs := by
  obtain ⟨hS, -⟩ := getInlineArgsFrom_values (P := P) hsize hargs
  have hcall : createCall S (getWrapperTy (newLayoutOf C F)) callee F vs = .ok () := by
    rw [createCall_eq_ok]
    refine ⟨fun n hn LM hLM => ?_, htypes⟩
    rw [hS] at hLM
    obtain ⟨src, hsrc, rfl⟩ : ∃ src ∈ contextSources P (F.params.mapIdx paramArg) C,
      src.mod = LM := by simpa using hLM
    exact hkeep src hsrc n hn
  obtain ⟨attrs, hattrs⟩ := exists_remapParamAttributes (F := F) hpos hsize
    (List.replicate (getWrapperTy (newLayoutOf C F)).length [])
  refine ⟨S.mod, ⟨⟨.wrapper F.origin, (newLayoutOf C F).ret, getWrapperTy (newLayoutOf C F),
    F.fnAttrs, attrs⟩, callee, vs⟩, ?_, rfl⟩
  rw [createWrapperFun, getNewLayout_eq hsize]
  simp only [bind, Except.bind, getInlineArgs]
  have hargs' : getInlineArgsFrom P (layoutOf F) (newLayoutOf C F) (layoutOf F).args
      C.argumentMapping ⟨M, []⟩ = .ok (S, vs) := hargs
  simp only [hargs']
  have hno : (layoutOf F).structReturn.isSome = false := rfl
  simp only [hno, Bool.false_eq_true, if_false, List.nil_append, hcall, hattrs]

omit [BitcodeFormat β δ] in
theorem exists_value (hlen : vs.length = params.length) (hty : params[i]? = some ty) :
    ∃ v, vs[i]? = some v :=
  ⟨_, List.getElem?_eq_getElem (hlen ▸ (List.getElem?_eq_some_iff.1 hty).1)⟩

/-- Each placeholder is found where its value is its parameter of the wrapper. -/
theorem found_of_callsWith (hsize : C.size = F.params.length)
    (hW : createWrapperFun P M callee F (layoutOf F) C = .ok (M', W))
    (hcalls : CallsWith P M' C F.params W.args) {k : ℕ}
    (hi : C.argumentMapping[i]? = some (.forward k)) :
    FirstAt C i k ∧ (i = 0 → ∀ j ∈ C.placeholders, j < k → ∀ l < j, l ∈ C.placeholders) := by
  obtain ⟨rfl, -, -, -, -, hargs⟩ := createWrapperFun_ok hsize hW
  obtain ⟨-, hlen, hpassed⟩ := getInlineArgsFrom_values (P := P) hsize hargs
  obtain ⟨ty, hty⟩ := exists_param hsize hi
  obtain ⟨v, hv⟩ := exists_value hlen hty
  have hp := hpassed i ty _ _ hty hi hv
  have hright := hcalls.2 i ty _ _ hty hi hv
  simp only [IsValueFor, Argument.forwardIdx] at hright
  rw [hright] at hp
  exact (getForwardArgs_ok_iff hsize hi F.ret F.ret).1 hp

theorem materialisable_of_createWrapperFun (hsize : C.size = F.params.length)
    (hW : createWrapperFun P M callee F (layoutOf F) C = .ok (M', W)) :
    Materialisable P C F.params := by
  obtain ⟨rfl, -, -, -, htypes, hargs⟩ := createWrapperFun_ok hsize hW
  obtain ⟨-, hlen, hpassed⟩ := getInlineArgsFrom_values (P := P) hsize hargs
  intro i ty arg hty harg hf
  obtain ⟨v, hv⟩ := exists_value hlen hty
  obtain ⟨c, hc, hcap⟩ := (hpassed i ty arg _ hty harg hv).isValueFor_captured hf
  refine ⟨_, hcap, ?_⟩
  have htype := (map_type?_eq_iff hlen).1 htypes i ty v hty hv
  rw [hc] at htype
  rw [Constant.type_map]
  exact Option.some.inj htype

section Converse

variable (hsize : C.size = F.params.length) (hnodup : C.placeholders.Nodup)
  (hgap : C.FirstGapless)
include hsize hnodup hgap

theorem getForwardArgs_ok {k : ℕ} (hi : C.argumentMapping[i]? = some (.forward k)) :
    getForwardArgs (σ := Sym String) (paramArg i ty) (layoutOf F) (newLayoutOf C F)
      = .ok [.arg (C.wrapperParam k)] := by
  refine (getForwardArgs_ok_iff hsize hi F.ret F.ret).2
    ⟨⟨hi, Context.nodup_placeholders.1 hnodup i k hi⟩, ?_⟩
  rintro rfl
  exact hgap k hi

/-- A placeholder can be passed, and so can a captured argument that there are constants for. -/
theorem canPass_of_captured (harg : C.argumentMapping[i]? = some arg)
    (h : arg.forwardIdx = none → ∃ ts, captured P (paramArg i ty) arg = .ok ts) :
    CanPass P (layoutOf F) (newLayoutOf C F) (paramArg i ty, arg) := by
  unfold CanPass
  cases hf : arg.forwardIdx with
  | some k =>
    rw [Argument.forwardIdx_eq_some.1 hf] at harg
    exact ⟨_, getForwardArgs_ok hsize hnodup hgap harg⟩
  | none => exact h hf

theorem Passed.isValueFor {v : LValue} (harg : C.argumentMapping[i]? = some arg)
    (h : Passed P (layoutOf F) (newLayoutOf C F) M (paramArg i ty, arg) [v]) :
    IsValueFor P M C i ty arg v := by
  unfold IsValueFor
  cases hf : arg.forwardIdx with
  | some k =>
    rw [Argument.forwardIdx_eq_some.1 hf] at harg h
    have heq : (Except.ok [v] : Except Fault (List LValue)) = .ok [.arg (C.wrapperParam k)] :=
      h.symm.trans (getForwardArgs_ok hsize hnodup hgap harg)
    simpa using heq
  | none => exact h.isValueFor_captured hf

omit hgap in
theorem IsValueFor.type? {v : LValue} (hmat : Materialisable P C F.params)
    (hty : F.params[i]? = some ty) (harg : C.argumentMapping[i]? = some arg)
    (h : IsValueFor P M C i ty arg v) :
    v.type? ((newArgs C F.params).flatMap (·.types)) = some ty := by
  unfold IsValueFor at h
  cases hf : arg.forwardIdx with
  | some k =>
    rw [hf] at h
    rw [Argument.forwardIdx_eq_some.1 hf] at harg
    simp only [h, Value.type?]
    exact wrapperTypes_firstAt hsize ⟨harg, Context.nodup_placeholders.1 hnodup i k harg⟩ hty
  | none =>
    rw [hf] at h
    obtain ⟨c, rfl, hcap⟩ := h
    obtain ⟨t, ht, htype⟩ := hmat i _ _ hty harg hf
    rw [hcap] at ht
    cases ht
    rw [Constant.type_map] at htype
    simp only [Value.type?, htype]

end Converse

/-- `CreateWrapperFun` succeeds with the values that the context asks for, one for each
parameter, exactly when no placeholder occurs twice, no smaller index is left out before the
placeholder of the first argument, every captured argument is a constant of its parameter's type,
and no module that is linked in takes the function's name. -/
theorem createWrapperFun_callsWith_iff (hpos : F.params ≠ []) (hsize : C.size = F.params.length) :
    (∃ M' W, createWrapperFun P M callee F (layoutOf F) C = .ok (M', W)
        ∧ CallsWith P M' C F.params W.args)
      ↔ C.placeholders.Nodup ∧ C.FirstGapless ∧ Materialisable P C F.params
        ∧ KeepsCallee P C F.params callee := by
  constructor
  · rintro ⟨M', W, hW, hcalls⟩
    have hfound {i k : ℕ} := found_of_callsWith (i := i) (k := k) hsize hW hcalls
    exact ⟨Context.nodup_placeholders.2 fun i k hi => (hfound hi).1.2,
      fun k hk => (hfound hk).2 rfl, materialisable_of_createWrapperFun hsize hW,
      (createWrapperFun_ok hsize hW).2.2.2.1⟩
  · rintro ⟨hnodup, hgap, hmat, hkeep⟩
    have hcan (i : ℕ) (ty : Ty) (arg : Argument) (hty : F.params[i]? = some ty)
        (harg : C.argumentMapping[i]? = some arg) :
        CanPass P (layoutOf F) (newLayoutOf C F) (paramArg i ty, arg) := by
      refine canPass_of_captured hsize hnodup hgap harg fun hf => ?_
      obtain ⟨t, ht, -⟩ := hmat i ty arg hty harg hf
      exact ⟨_, ht⟩
    obtain ⟨S, vs, hargs⟩ := exists_getInlineArgsFrom hsize hcan ⟨M, []⟩
    obtain ⟨hS, hlen, hpassed⟩ := getInlineArgsFrom_values (P := P) hsize hargs
    have hright : CallsWith P S.mod C F.params vs :=
      ⟨hlen, fun i ty arg v hty harg hv =>
        (hpassed i ty arg v hty harg hv).isValueFor hsize hnodup hgap harg⟩
    have htypes : vs.map (Value.type? ((newArgs C F.params).flatMap (·.types)))
        = F.params.map some := by
      refine (map_type?_eq_iff hlen).2 fun i ty v hty hv => ?_
      obtain ⟨arg, harg⟩ := exists_argument hsize hty
      exact (hright.2 i ty arg v hty harg hv).type? hsize hnodup hmat hty harg
    obtain ⟨M', W, hW, rfl⟩ := exists_createWrapperFun hpos hsize hkeep hargs htypes
    obtain ⟨rfl, -⟩ := createWrapperFun_ok hsize hW
    refine ⟨_, W, hW, ?_⟩
    rwa [hS, LinkState.mod_linkSources] at hright

end Call

end EasyJit
