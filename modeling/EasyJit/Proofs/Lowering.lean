import EasyJit.Lowering
import EasyJit.Proofs.Specialise

/-!
# When structs are grouped correctly

The layout has one argument for each parameter of LLVM, so that it is right only where every
parameter of C++ is lowered to one; and a struct in a register is read from its start, or taken for
one behind a pointer if the register holds a pointer (`groups_iff`).
-/

namespace EasyJit

open LLVM Linker

variable {β δ : Type} [BitcodeFormat β δ] {P : Process β δ} {C : Context} {F : FunctionInfo}
  {M : LModule δ} {L : Lowering} {Ls : List Lowering} {arg : Argument} {i : ℕ} {ty : Ty}

/-! ## One parameter -/

theorem structValues_singleton {σ : Type} (DL : DataLayout) (data : List UInt8) (ty : Ty) :
    structValues (σ := σ) DL data [ty] 0 = (partConstant DL data (ty, 0)).map ([·]) := by
  simp only [structValues, partConstant]
  cases getConstantFromRaw (σ := σ) DL ty (data.drop 0) with
  | error e => rfl
  | ok r =>
    obtain ⟨c, n⟩ := r
    cases c <;> rfl

theorem captured_paramArg (i : ℕ) (ty : Ty) (arg : Argument) :
    captured P (paramArg i ty) arg = captured P (paramArg 0 ty) arg := by
  cases arg <;> rfl

/-- A register that holds a pointer is given the bytes of the pointer. -/
theorem partConstant_ptr {σ : Type} {DL : DataLayout} {data : List UInt8} {ty : Ty} {off : ℕ}
    {c : Constant σ} (h : partConstant DL data (.ptr ty, off) = .ok c) :
    ∃ bs, c = .bytes bs (.ptr ty) := by
  simp only [partConstant, Except.bind_eq_ok] at h
  obtain ⟨⟨o, n⟩, ho, h⟩ := h
  simp only [getConstantFromRaw, Except.bind_eq_ok] at ho
  obtain ⟨bs, -, ho⟩ := ho
  simp only [Ty.isPointerTy, Bool.true_or, if_true, Except.ok.injEq, Prod.mk.injEq] at ho
  obtain ⟨rfl, -⟩ := ho
  cases h
  exact ⟨bs, rfl⟩

theorem structTarget_address {data : List UInt8} {ty : Ty} {t : Constant (Target δ)}
    (h : structTarget P data ty = .ok t) :
    ∃ structTy c, ty = .ptr structTy ∧ t = .address structTy c := by
  unfold structTarget at h
  split at h
  · simp only [Except.bind_eq_ok] at h
    obtain ⟨_, -, _, -, o, -, h⟩ := h
    cases o with
    | none => cases h
    | some c =>
      simp only at h
      split_ifs at h
      cases h
      exact ⟨_, _, rfl, rfl⟩
  · cases h

/-- Behind a pointer, a struct is passed as the address of the global that is made for it. -/
theorem captured_byPointer (i : ℕ) (structTy : Ty) (data : List UInt8) :
    captured P (paramArg i (.ptr structTy)) (.struct data)
      = (structTarget P data (.ptr structTy)).map ([·]) := by
  cases h : structTarget P data (.ptr structTy) <;>
    simp [captured, paramArg, Ty.isPointerTy, firstType, h, bind, Except.bind, Except.map]

/-- In a register of no pointer type, a struct is the value that is read from its start. -/
theorem captured_byValue (i : ℕ) (hptr : ty.isPointerTy = false) (data : List UInt8) :
    captured P (paramArg i ty) (.struct data)
      = (partConstant P.layout data (ty, 0)).map ([·]) := by
  rw [← structValues_singleton]
  simp only [captured, paramArg, hptr, Bool.false_eq_true, if_false]

/-- What the runtime makes of an argument in one register is what is lowered to it, exactly when
the argument fits. -/
theorem fitsRegister_iff (hL : L.types = [ty]) (hadm : L.Admits arg)
    (hf : arg.forwardIdx = none) :
    (∃ ts, captured P (paramArg i ty) arg = .ok ts ∧ lowered P L arg = .ok ts)
      ↔ FitsRegister P L arg := by
  rw [captured_paramArg]
  cases L with
  | scalar ty' =>
    cases hL
    have hl : lowered P (.scalar ty) arg = captured P (paramArg 0 ty) arg := by
      simp only [lowered]
    simp only [hl, and_self]
    unfold FitsRegister
    rfl
  | memory structTy =>
    cases hL
    cases arg with
    | struct data =>
      have hlow : lowered P (.memory structTy) (.struct data)
          = (structTarget P data (.ptr structTy)).map ([·]) := by
        cases h : structTarget P data (.ptr structTy) <;>
          simp [lowered, h, bind, Except.bind, Except.map]
      simp only [captured_byPointer, hlow, and_self, Except.map_eq_ok, FitsRegister]
      constructor
      · rintro ⟨_, t, h, -⟩
        exact ⟨t, h⟩
      · rintro ⟨t, h⟩
        exact ⟨_, t, h, rfl⟩
    | forward k => cases hf
    | _ => exact hadm.elim
  | registers parts =>
    obtain ⟨part, rfl⟩ : ∃ part, parts = [part] := by
      rw [← List.length_eq_one_iff]
      have := congrArg List.length hL
      simpa [Lowering.types] using this
    obtain ⟨ty', off⟩ := part
    cases hL
    cases arg with
    | struct data =>
      have hlow : lowered P (.registers [(ty', off)]) (.struct data)
          = (partConstant P.layout data (ty', off)).map ([·]) := by
        simp only [lowered, List.mapM_cons, List.mapM_nil]
        cases partConstant (σ := Target δ) P.layout data (ty', off) <;> rfl
      simp only [hlow, FitsRegister, List.forall_mem_singleton]
      cases hptr : ty'.isPointerTy with
      | true =>
        obtain ⟨pointee, rfl⟩ : ∃ pointee, ty' = .ptr pointee := by
          cases ty' <;> first | exact ⟨_, rfl⟩ | cases hptr
        simp only [reduceCtorEq, false_and, iff_false]
        rintro ⟨ts, hcap, hl⟩
        rw [captured_byPointer] at hcap
        obtain ⟨t, ht, rfl⟩ := Except.map_eq_ok.1 hcap
        obtain ⟨c, hc, heq⟩ := Except.map_eq_ok.1 hl
        obtain ⟨bs, rfl⟩ := partConstant_ptr hc
        obtain ⟨_, _, -, rfl⟩ := structTarget_address ht
        cases heq
      | false =>
        simp only [captured_byValue 0 hptr, Except.map_eq_ok, true_and]
        constructor
        · rintro ⟨_, ⟨t, ht, rfl⟩, t', ht', heq⟩
          cases heq
          exact ⟨t, ht', ht⟩
        · rintro ⟨t, ht, ht'⟩
          exact ⟨_, ⟨t, ht', rfl⟩, t, ht, rfl⟩
    | forward k => cases hf
    | _ => exact hadm.elim

/-! ## All parameters -/

theorem lowered_length {ts : List (Constant (Target δ))} (hf : arg.forwardIdx = none)
    (h : lowered P L arg = .ok ts) : ts.length = L.types.length := by
  unfold lowered at h
  split at h
  · exact captured_length hf h
  · obtain ⟨t, -, heq⟩ := Except.bind_eq_ok.1 h
    cases heq
    rfl
  · rw [Except.mapM_eq_ok] at h
    rw [← h.length_eq, Lowering.types, List.length_map]
  · cases h

theorem AreValuesFor.length {vs : List LValue} (h : AreValuesFor P M C Ls (L, arg) vs) :
    vs.length = L.types.length := by
  unfold AreValuesFor at h
  split at h
  · simp [h]
  · rename_i hf
    obtain ⟨cs, rfl, hl⟩ := h
    have := lowered_length hf hl
    rwa [List.length_map] at this ⊢

theorem wrapperStart_succ (C : Context) (Ls : List Lowering) (k : ℕ) :
    C.wrapperStart Ls (k + 1) = C.wrapperStart Ls k
      + match (C.argumentMapping.findIdx? (·.forwardIdx = some k)).bind (Ls[·]?) with
        | some L => L.types.length
        | none => 0 := by
  rw [Context.wrapperStart, List.range_succ, List.map_append, List.sum_append,
    List.map_singleton, List.sum_singleton]
  rfl

/-- Where every parameter of C++ is one of LLVM, the wrapper's are one for each placeholder. -/
theorem wrapperStart_eq (hsize : C.size = Ls.length) (hone : ∀ L ∈ Ls, L.types.length = 1)
    (k : ℕ) : C.wrapperStart Ls k = C.wrapperParam k := by
  induction k with
  | zero => rfl
  | succ k ih =>
    rw [wrapperStart_succ, ih, Context.wrapperParam_succ, Nat.add_left_cancel_iff]
    cases hfind : C.argumentMapping.findIdx? (·.forwardIdx = some k) with
    | none =>
      have hmem : k ∉ C.placeholders := by
        intro hmem
        obtain ⟨a, ha, hk⟩ := List.mem_filterMap.1 hmem
        rw [List.findIdx?_eq_none_iff] at hfind
        simpa [hk] using hfind a ha
      simp [hmem]
    | some i =>
      obtain ⟨hi, hk, -⟩ := List.findIdx?_eq_some_iff_getElem.1 hfind
      have hmem : k ∈ C.placeholders :=
        List.mem_filterMap.2 ⟨_, List.getElem_mem hi, by simpa using hk⟩
      have hi' : i < Ls.length := Nat.lt_of_lt_of_eq hi hsize
      simp [hmem, hi', hone _ (List.getElem_mem hi')]

/-- A placeholder is found in the layout of the wrapper, and a captured argument fits. -/
def FoundOrFits (P : Process β δ) (C : Context) (F : FunctionInfo) (i : ℕ) (ty : Ty)
    (L : Lowering) (arg : Argument) : Prop :=
  match arg.forwardIdx with
  | some k => getForwardArgs (σ := Sym String) (paramArg i ty) (layoutOf F) (newLayoutOf C F)
    = .ok [.arg (C.wrapperParam k)]
  | none => FitsRegister P L arg

section Groups

variable (hsize : C.size = F.params.length) (hLs : Ls.map (·.types) = F.params.map ([·]))
include hLs

theorem length_lowerings : Ls.length = F.params.length := by
  simpa using congrArg List.length hLs

theorem types_eq (hty : F.params[i]? = some ty) (hL : Ls[i]? = some L) : L.types = [ty] := by
  have := congrArg (·[i]?) hLs
  simpa [hty, hL] using this

theorem types_length : ∀ L ∈ Ls, L.types.length = 1 := by
  intro L hL
  have := List.mem_map_of_mem (f := (·.types)) hL
  rw [hLs] at this
  obtain ⟨ty, -, hty⟩ := List.mem_map.1 this
  rw [← hty]
  rfl

include hsize

/-- What is passed for one argument is right when it is found or fits. -/
theorem areValuesFor_iff {v : LValue} (hL : L.types = [ty]) (hadm : L.Admits arg)
    (hp : Passed P (layoutOf F) (newLayoutOf C F) M (paramArg i ty, arg) [v]) :
    AreValuesFor P M C Ls (L, arg) [v] ↔ FoundOrFits P C F i ty L arg := by
  unfold AreValuesFor FoundOrFits
  unfold Passed at hp
  cases hf : arg.forwardIdx with
  | some k =>
    rw [hf] at hp
    dsimp only at hp ⊢
    rw [wrapperStart_eq (hsize.trans (length_lowerings hLs).symm) (types_length hLs), hp, hL]
    simp
  | none =>
    rw [hf] at hp
    obtain ⟨cs, hvs, -, hcap⟩ := hp
    dsimp only
    rw [← fitsRegister_iff (i := i) hL hadm hf]
    dsimp only at hcap
    rw [hcap]
    constructor
    · rintro ⟨cs', hvs', hl⟩
      have heq : cs' = cs := by
        rw [hvs] at hvs'
        exact (List.map_injective_iff.2 (fun _ _ h => by cases h; rfl) hvs').symm
      exact ⟨_, rfl, heq ▸ hl⟩
    · rintro ⟨ts, heq, hl⟩
      cases heq
      exact ⟨cs, hvs, hl⟩

omit hsize hLs in
theorem layoutOf_types : (layoutOf F).args.map (·.types) = F.params.map ([·]) := by
  refine List.ext_getElem (by simp [layoutOf]) fun i _ _ => ?_
  simp [layoutOf, paramArg]

theorem forall₂_values {vs : List LValue} (hlen : vs.length = F.params.length) :
    List.Forall₂ (AreValuesFor P M C Ls) (Ls.zip C.argumentMapping) (vs.map ([·]))
      ↔ ∀ (i : ℕ) L arg v, Ls[i]? = some L → C.argumentMapping[i]? = some arg →
        vs[i]? = some v → AreValuesFor P M C Ls (L, arg) [v] := by
  have hlenLs : Ls.length = F.params.length := length_lowerings hLs
  have hlenC : C.argumentMapping.length = F.params.length := hsize
  rw [List.forall₂_iff_get]
  simp only [List.length_zip, List.length_map, List.get_eq_getElem, List.getElem_zip,
    List.getElem_map]
  constructor
  · rintro ⟨-, h⟩ i L arg v hL harg hv
    obtain ⟨hi, rfl⟩ := List.getElem?_eq_some_iff.1 hL
    obtain ⟨hi', rfl⟩ := List.getElem?_eq_some_iff.1 harg
    obtain ⟨hi'', rfl⟩ := List.getElem?_eq_some_iff.1 hv
    exact h i (by omega) hi''
  · intro h
    refine ⟨by omega, fun i hi hi' => ?_⟩
    exact h i _ _ _ (List.getElem?_eq_getElem (by omega)) (List.getElem?_eq_getElem (by omega))
      (List.getElem?_eq_getElem hi')

end Groups

/-- What `Groups` says, for one value for each parameter. -/
theorem groups_iff_values (hret : F.returnsStruct = false) (hsize : C.size = Ls.length) :
    Groups P M F Ls C ↔ F.params ≠ [] ∧ Ls.map (·.types) = F.params.map ([·])
      ∧ ∃ vs, getInlineArgsFrom P (layoutOf F) (newLayoutOf C F) (F.params.mapIdx paramArg)
          C.argumentMapping ⟨M, []⟩
          = .ok (LinkState.linkSources ⟨M, []⟩ (contextSources P (F.params.mapIdx paramArg) C), vs)
        ∧ ∀ (i : ℕ) L arg v, Ls[i]? = some L → C.argumentMapping[i]? = some arg →
          vs[i]? = some v → AreValuesFor P
            (M.linkAll (contextSources P (F.params.mapIdx paramArg) C)) C Ls (L, arg) [v] := by
  constructor
  · rintro ⟨HLL, newHLL, S, vss, hHLL, htypes, hnew, hargs, hvss⟩
    obtain ⟨hpos, -, rfl⟩ := ofFunction_eq_ok.1 hHLL
    have hLs : Ls.map (·.types) = F.params.map ([·]) := by rw [← htypes, layoutOf_types]
    have hsize' : C.size = F.params.length := hsize.trans (length_lowerings hLs)
    rw [getNewLayout_eq hsize', Except.ok.injEq] at hnew
    subst hnew
    obtain ⟨⟨S₁, vs⟩, hargs, heq⟩ := Except.bind_eq_ok.1 hargs
    cases heq
    obtain ⟨hS, hlen, -⟩ := getInlineArgsFrom_values (P := P) hsize' hargs
    have hone : ∀ l ∈ vss, l.length = 1 := by
      intro l hl
      obtain ⟨i, hi, rfl⟩ := List.getElem_of_mem hl
      have hx := hvss.get (hvss.length_eq ▸ hi) hi
      rw [← types_length hLs _ (List.of_mem_zip (List.get_mem _ ⟨i, hvss.length_eq ▸ hi⟩)).1]
      exact hx.length
    obtain ⟨as, rfl, hflat⟩ := flatten_of_length_one hone
    rw [hflat] at hargs
    have hargs' : getInlineArgsFrom P (layoutOf F) (newLayoutOf C F) (F.params.mapIdx paramArg)
        C.argumentMapping ⟨M, []⟩ = .ok (S, as) := hargs
    obtain ⟨hS, hlen, -⟩ := getInlineArgsFrom_values (P := P) hsize' hargs'
    rw [hS] at hargs' hvss
    rw [LinkState.mod_linkSources] at hvss
    exact ⟨hpos, hLs, as, hargs', (forall₂_values hsize' hLs hlen).1 hvss⟩
  · rintro ⟨hpos, hLs, vs, hargs, hvals⟩
    have hsize' : C.size = F.params.length := hsize.trans (length_lowerings hLs)
    obtain ⟨-, hlen, -⟩ := getInlineArgsFrom_values (P := P) hsize' hargs
    refine ⟨layoutOf F, newLayoutOf C F,
      LinkState.linkSources ⟨M, []⟩ (contextSources P (F.params.mapIdx paramArg) C),
      vs.map ([·]), ofFunction_eq_ok.2 ⟨hpos, hret, rfl⟩,
      by rw [layoutOf_types, hLs], getNewLayout_eq hsize', ?_, ?_⟩
    · refine Except.bind_eq_ok.2 ⟨_, hargs, ?_⟩
      have hflat : (vs.map fun v => [v]).flatten = vs := by
        rw [← List.flatMap_def, List.flatMap_singleton']
      rw [hflat]
      rfl
    · rw [LinkState.mod_linkSources]
      exact (forall₂_values hsize' hLs hlen).2 hvals

/-- Each parameter of C++ is grouped correctly exactly when the function has parameters, every one
is lowered to one of LLVM, no placeholder occurs twice, no smaller index is left out before the
placeholder of the first argument, and every captured argument fits the register it is for. -/
theorem groups_iff (hparams : F.params = Ls.flatMap (·.types)) (hret : F.returnsStruct = false)
    (hsize : C.size = Ls.length) (hadm : ∀ x ∈ Ls.zip C.argumentMapping, x.1.Admits x.2) :
    Groups P M F Ls C ↔ F.params ≠ [] ∧ (∀ L ∈ Ls, L.types.length = 1) ∧ C.placeholders.Nodup
      ∧ C.FirstGapless ∧ ∀ x ∈ Ls.zip C.argumentMapping, x.2.forwardIdx = none →
        FitsRegister P x.1 x.2 := by
  rw [groups_iff_values hret hsize]
  have hmem {i : ℕ} {L : Lowering} {arg : Argument} (hL : Ls[i]? = some L)
      (harg : C.argumentMapping[i]? = some arg) : (L, arg) ∈ Ls.zip C.argumentMapping :=
    List.mem_of_getElem? (List.getElem?_zip_eq_some.2 ⟨hL, harg⟩)
  constructor
  · rintro ⟨hpos, hLs, vs, hargs, hvals⟩
    have hsize' : C.size = F.params.length := hsize.trans (length_lowerings hLs)
    obtain ⟨-, hlen, hpassed⟩ := getInlineArgsFrom_values (P := P) hsize' hargs
    rw [LinkState.mod_linkSources] at hpassed
    have hright {i : ℕ} {L : Lowering} {arg : Argument} (hL : Ls[i]? = some L)
        (harg : C.argumentMapping[i]? = some arg) : ∃ ty, FoundOrFits P C F i ty L arg := by
      have hi : i < F.params.length :=
        length_lowerings hLs ▸ (List.getElem?_eq_some_iff.1 hL).1
      have hty : F.params[i]? = some F.params[i] := List.getElem?_eq_getElem hi
      obtain ⟨v, hv⟩ := exists_value hlen hty
      exact ⟨_, (areValuesFor_iff hsize' hLs (types_eq hLs hty hL) (hadm _ (hmem hL harg))
        (hpassed i _ arg v hty harg hv)).1 (hvals i L arg v hL harg hv)⟩
    have hfound {i k : ℕ} (hi : C.argumentMapping[i]? = some (.forward k)) :
        FirstAt C i k ∧ (i = 0 → ∀ j ∈ C.placeholders, j < k → ∀ l < j, l ∈ C.placeholders) := by
      have hi' : i < Ls.length := hsize ▸ (List.getElem?_eq_some_iff.1 hi).1
      obtain ⟨ty, hget⟩ := hright (List.getElem?_eq_getElem hi') hi
      exact (getForwardArgs_ok_iff hsize' hi F.ret F.ret).1 hget
    refine ⟨hpos, types_length hLs, Context.nodup_placeholders.2 fun i k hi => (hfound hi).1.2,
      fun k hk => (hfound hk).2 rfl, fun x hx hf => ?_⟩
    obtain ⟨i, hi⟩ := List.mem_iff_getElem?.1 hx
    obtain ⟨hL, harg⟩ := List.getElem?_zip_eq_some.1 hi
    obtain ⟨ty, hfits⟩ := hright hL harg
    rwa [FoundOrFits, hf] at hfits
  · rintro ⟨hpos, hone, hnodup, hgap, hfits⟩
    have hLs : Ls.map (·.types) = F.params.map ([·]) := by
      obtain ⟨tys, htys, hflat⟩ := flatten_of_length_one
        (L := Ls.map (·.types)) (by simpa using hone)
      rw [hparams, htys, ← hflat, List.flatMap_def]
    have hsize' : C.size = F.params.length := hsize.trans (length_lowerings hLs)
    have hcan (i : ℕ) (ty : Ty) (arg : Argument) (hty : F.params[i]? = some ty)
        (harg : C.argumentMapping[i]? = some arg) :
        CanPass P (layoutOf F) (newLayoutOf C F) (paramArg i ty, arg) := by
      refine canPass_of_captured hsize' hnodup hgap harg fun hf => ?_
      have hi : i < Ls.length := by
        rw [length_lowerings hLs]
        exact (List.getElem?_eq_some_iff.1 hty).1
      have hL : Ls[i]? = some Ls[i] := List.getElem?_eq_getElem hi
      obtain ⟨ts, hcap, -⟩ := (fitsRegister_iff (P := P) (i := i) (types_eq hLs hty hL)
        (hadm _ (hmem hL harg)) hf).2 (hfits _ (hmem hL harg) hf)
      exact ⟨ts, hcap⟩
    obtain ⟨S, vs, hargs⟩ := exists_getInlineArgsFrom hsize' hcan ⟨M, []⟩
    obtain ⟨rfl, hlen, hpassed⟩ := getInlineArgsFrom_values (P := P) hsize' hargs
    rw [LinkState.mod_linkSources] at hpassed
    refine ⟨hpos, hLs, vs, hargs, fun i L arg v hL harg hv => ?_⟩
    have hi : i < F.params.length := hlen ▸ (List.getElem?_eq_some_iff.1 hv).1
    have hty : F.params[i]? = some F.params[i] := List.getElem?_eq_getElem hi
    refine (areValuesFor_iff hsize' hLs (types_eq hLs hty hL) (hadm _ (hmem hL harg))
      (hpassed i _ arg v hty harg hv)).2 ?_
    unfold FoundOrFits
    cases hf : arg.forwardIdx with
    | some k =>
      rw [Argument.forwardIdx_eq_some.1 hf] at harg
      exact getForwardArgs_ok hsize' hnodup hgap harg
    | none => exact hfits _ (hmem hL harg) hf

section Samples

attribute [local instance] BitcodeFormat.self

open Sample

/-- A struct of two `int`s, which is passed in one register, and a placeholder. -/
theorem groups_oneRegister : Groups (process (δ := Unit) []) .empty
    (function 0 "f" [.int 64, .int 32]) [.registers [(.int 64, 0)], .scalar (.int 32)]
    { argumentMapping := [.struct [1, 0, 0, 0, 2, 0, 0, 0], .forward 0] } := by
  refine (groups_iff rfl rfl rfl ?_).2 ⟨by decide, by decide, by decide, ?_, ?_⟩
  · rintro x (_ | ⟨_, _ | ⟨_, ⟨⟩⟩⟩) <;> trivial
  · intro k hk
    cases hk
  · rintro x (_ | ⟨_, _ | ⟨_, ⟨⟩⟩⟩) hf
    · rintro part (_ | ⟨_, ⟨⟩⟩)
      exact ⟨rfl, .int 64 8589934593, rfl, rfl⟩
    · cases hf

/-- A struct of an `int` and a `double`, which is passed in two registers. -/
theorem not_groups_twoRegisters :
    let F := function 0 "f" [.int 32, .fp .double]
    let Ls := [Lowering.registers [(.int 32, 0), (.fp .double, 8)]]
    let C : Context :=
      { argumentMapping := [.struct [1, 0, 0, 0, 0, 0, 0, 0, 0, 0, 0, 0, 0, 0, 0, 0x40]] }
    F.params = Ls.flatMap (·.types) ∧ F.returnsStruct = false ∧ C.size = Ls.length
      ∧ (∀ x ∈ Ls.zip C.argumentMapping, x.1.Admits x.2)
      ∧ ¬ Groups (process (δ := Unit) []) .empty F Ls C := by
  refine ⟨rfl, rfl, rfl, ?_, ?_⟩
  · rintro x (_ | ⟨_, ⟨⟩⟩)
    trivial
  · rintro ⟨HLL, newHLL, S, vss, hHLL, htypes, -⟩
    cases hHLL
    cases htypes

end Samples

end EasyJit
