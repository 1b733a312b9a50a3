import EasyJit.Proofs.Pointers
import EasyJit.Proofs.Lowering
import Mathlib.Order.Bounds.Basic

/-!
# The types of the values a wrapper passes

`GetInlineArgs` pushes one value of the right type for each parameter exactly when no placeholder
is used twice, the placeholder of the first argument is not mistaken for one of another type, and
every captured argument fits its parameter (`getInlineArgs_typed_iff`). Numbers always fit;
pointers are passed as the function they are registered for, whatever its type.
-/

namespace EasyJit

open LLVM Linker

variable {β δ : Type} [BitcodeFormat β δ] {P : Process β δ} {C : Context} {F : FunctionInfo}
  {M : LModule δ} {params : List Ty} {i k : ℕ} {ty : Ty} {arg : Argument} {p : Ptr}

/-- What `set_param` records for a parameter: a number for a number, and a pointer or a wrapper for
a pointer. A struct may be in any register. -/
def KindMatches (ty : Ty) : Argument → Prop
  | .int _ => ∃ w, ty = .int w
  | .float _ => ∃ k, ty = .fp k
  | .ptr _ | .module _ => ty.isPointerTy = true
  | .struct _ | .forward _ => True

/-- The address is not registered, or registered for a variable or a function of the type. -/
def PointerFits (P : Process β δ) (p : Ptr) (ty : Ty) : Prop :=
  ∃ o, P.source? p = .ok o ∧ ∀ src ∈ o, ∀ F body,
    src.mod.shape? (.ext src.entry) = some ⟨.function F, body⟩ → .ptr F.functionType = ty

/-- A captured argument of the right kind that has the type of its parameter. -/
def Fits (P : Process β δ) (ty : Ty) : Argument → Prop
  | .ptr p => PointerFits P p ty
  | .struct data => match ty with
    | .ptr structTy => LeavesCapturable P structTy data
    | ty => isDecodable P.layout ty = true ∧ P.layout.getTypeStoreSize ty ≤ data.length
  | .module fn => ty = .ptr (P.modules fn).function.functionType
  | .int _ | .float _ | .forward _ => True

/-- If an index is left out below the placeholder of the first argument, then the next one in use
stands for a parameter of the type of the first. -/
def FirstTyped (C : Context) (params : List Ty) : Prop :=
  ∀ k g j m, C.argumentMapping[0]? = some (.forward k) → IsLeast {g | g ∉ C.placeholders} g →
    g < k → IsLeast {j | j ∈ C.placeholders ∧ g < j} j → FirstAt C m j → params[m]? = params[0]?

/-- `GetInlineArgs` gets through, and pushes one value for each parameter, of its type. -/
def PushesTyped (P : Process β δ) (M : LModule δ) (F : FunctionInfo) (C : Context) : Prop :=
  ∃ HLL newHLL S vs, HighLevelLayout.ofFunction F = .ok HLL ∧ getNewLayout C HLL = .ok newHLL
    ∧ getInlineArgs P C HLL newHLL ⟨M, []⟩ = .ok (S, vs)
    ∧ vs.map (Value.type? (getWrapperTy newHLL)) = F.params.map some

/-! ## Captured arguments -/

theorem linkTarget_typed_iff : (∃ t, linkTarget P p ty = .ok t ∧ ∀ c ∈ t, c.type = ty)
    ↔ PointerFits P p ty := by
  unfold linkTarget PointerFits
  cases hsrc : P.source? p with
  | error e => simp [bind, Except.bind]
  | ok o =>
    cases o with
    | none => simp [bind, Except.bind]
    | some src =>
      have hdef := (source?_ok hsrc).1
      rw [Module.defines, Option.isSome_iff_exists] at hdef
      obtain ⟨⟨info, body⟩, hshape⟩ := hdef
      cases info with
      | function F => simp [bind, Except.bind, entryTarget, hshape, Constant.type]
      | «variable» t =>
        by_cases ht : Ty.ptr t = ty
        · simp [bind, Except.bind, entryTarget, hshape, ht, Constant.type]
        · simp [bind, Except.bind, entryTarget, hshape, ht, Constant.type]

/-- A struct in a register of no pointer type is one value, which has the type of the register. -/
theorem byValue_typed_iff {data : List UInt8} (hptr : ty.isPointerTy = false) :
    (∃ t, captured P (paramArg i ty) (.struct data) = .ok [t] ∧ t.type = ty)
      ↔ isDecodable P.layout ty = true ∧ P.layout.getTypeStoreSize ty ≤ data.length := by
  simp only [captured_byValue i hptr, Except.map_eq_ok, partConstant, List.drop_zero,
    Except.bind_eq_ok]
  constructor
  · rintro ⟨_, ⟨t, ⟨⟨o, n⟩, ho, h⟩, -⟩, -⟩
    cases o with
    | none => cases h
    | some c => exact isDecodable_of_eq_ok ho
  · rintro ⟨hdec, hsize⟩
    obtain ⟨c, hc, htype, -⟩ := decodes_of_isDecodable (σ := Target δ) hsize hdec
    exact ⟨c, ⟨c, ⟨_, hc, rfl⟩, rfl⟩, htype⟩

theorem captured_struct_typed_iff {data : List UInt8} :
    (∃ t, captured P (paramArg i ty) (.struct data) = .ok [t] ∧ t.type = ty)
      ↔ Fits P ty (.struct data) := by
  cases ty with
  | ptr structTy =>
    simp only [captured_byPointer, Except.map_eq_ok, List.singleton_inj, Fits]
    constructor
    · rintro ⟨_, ⟨t, ht, rfl⟩, -⟩
      obtain ⟨_, c, hty, rfl⟩ := structTarget_address ht
      cases hty
      exact (leavesCapturable_of_structTarget ht).1
    · intro h
      obtain ⟨t, ht⟩ := exists_structTarget h
      exact ⟨_, ⟨_, ht, rfl⟩, rfl⟩
  | _ => exact byValue_typed_iff rfl

/-- A captured argument has the type of its parameter exactly when it fits. -/
theorem captured_typed_iff (hkind : KindMatches ty arg) (hf : arg.forwardIdx = none) :
    (∃ t, captured P (paramArg i ty) arg = .ok [t] ∧ t.type = ty) ↔ Fits P ty arg := by
  cases arg with
  | forward k => cases hf
  | int val =>
    obtain ⟨w, rfl⟩ := hkind
    exact ⟨fun _ => trivial, fun _ => ⟨_, rfl, rfl⟩⟩
  | float val =>
    obtain ⟨k, rfl⟩ := hkind
    exact ⟨fun _ => trivial, fun _ => ⟨_, rfl, rfl⟩⟩
  | ptr p =>
    have hptr : ty.isPointerTy = true := hkind
    rw [captured_paramArg, Fits, ← linkTarget_typed_iff]
    constructor
    · rintro ⟨t, ht, htype⟩
      have ht' := ht
      simp only [captured, Except.bind_eq_ok] at ht'
      obtain ⟨_, heq, _, -, o, ho, -⟩ := ht'
      cases heq
      rw [captured_ptr (l := (0, ty)) hptr ho, Except.ok.injEq, List.singleton_inj] at ht
      refine ⟨o, ho, ?_⟩
      rintro c rfl
      have ht : c = t := ht
      rwa [ht]
    · rintro ⟨o, ho, htype⟩
      refine ⟨_, captured_ptr (l := (0, ty)) hptr ho, ?_⟩
      cases o with
      | none => rfl
      | some c => exact htype c rfl
  | struct data => exact captured_struct_typed_iff
  | module fn =>
    obtain ⟨body, hshape⟩ := moduleSource_shape? P fn
    have hcap : captured P (paramArg i ty) (.module fn)
        = .ok [.global (some ⟨.function (P.modules fn).function, body⟩)
          (.ptr (P.modules fn).function.functionType)] := by
      simp [captured, paramArg, entryTarget, hshape, bind, Except.bind]
    rw [hcap, Fits]
    constructor
    · rintro ⟨t, ht, rfl⟩
      cases ht
      rfl
    · rintro rfl
      exact ⟨_, rfl, rfl⟩

/-! ## Placeholders -/

section Forward

variable (hsize : C.size = params.length)
include hsize

/-- The wrapper's parameter that is found for the first argument has its type. -/
theorem firstTyped_iff {g : ℕ} (hi : C.argumentMapping[0]? = some (.forward k)) (hgk : g ≤ k)
    (hg : g = k ∨ g ∉ C.placeholders) (hlt : ∀ j < g, j ∈ C.placeholders) :
    ((newArgs C params).flatMap (·.types))[C.wrapperParam g]? = params[0]?
      ↔ FirstTyped C params := by
  have hk : k ∈ C.placeholders := Context.mem_placeholders.2 ⟨0, hi⟩
  have hfirst : FirstAt C 0 k := ⟨hi, fun j hj => by omega⟩
  obtain ⟨ty, hty⟩ := exists_param hsize hi
  by_cases hmem : g ∈ C.placeholders
  · obtain rfl : g = k := hg.resolve_right (not_not.2 hmem)
    rw [wrapperTypes_firstAt hsize hfirst hty, hty]
    refine iff_of_true rfl fun k' g' j m hk' hg' hlt' _ _ => ?_
    rw [hi] at hk'
    cases hk'
    exact absurd (hlt g' hlt') hg'.1
  · have hleast : IsLeast {g | g ∉ C.placeholders} g := by
      refine ⟨hmem, fun j hj => ?_⟩
      by_contra hjg
      exact hj (hlt j (by omega))
    have hgk' : g < k := lt_of_le_of_ne hgk (by rintro rfl; exact hmem hk)
    have hex : ∃ j, j ∈ C.placeholders ∧ g < j := ⟨k, hk, hgk'⟩
    have hnext : IsLeast {j | j ∈ C.placeholders ∧ g < j} (Nat.find hex) :=
      ⟨Nat.find_spec hex, fun j hj => Nat.find_min' hex hj⟩
    obtain ⟨m, hm⟩ := exists_firstAt (Nat.find_spec hex).1
    obtain ⟨ty', hty'⟩ := exists_param hsize hm.1
    have hwrap : C.wrapperParam g = C.wrapperParam (Nat.find hex) := by
      refine (Context.wrapperParam_eq (Nat.find_spec hex).2.le fun j hgj hj hjmem => ?_).symm
      rcases Nat.lt_or_eq_of_le hgj with h | rfl
      · exact Nat.find_min hex hj ⟨hjmem, h⟩
      · exact hmem hjmem
    rw [hwrap, wrapperTypes_firstAt hsize hm hty', ← hty']
    constructor
    · intro h k' g' j m' hk' hg' _ hj hm'
      obtain rfl := hleast.unique hg'
      obtain rfl := hnext.unique hj
      obtain rfl := hm.unique hm'
      exact h
    · intro h
      exact h k g _ m hi hleast hgk' hnext hm

/-- A placeholder is given a parameter of the wrapper of the right type exactly at its first
occurrence, and at position 0 where the parameter that is found has the type. -/
theorem getForwardArgs_typed_iff {σ : Type} {ret ret' : Ty}
    (hi : C.argumentMapping[i]? = some (.forward k)) (hty : params[i]? = some ty) :
    (∃ v : Value σ, getForwardArgs (paramArg i ty) ⟨none, params.mapIdx paramArg, ret⟩
        ⟨none, newArgs C params, ret'⟩ = .ok [v]
      ∧ v.type? ((newArgs C params).flatMap (·.types)) = some ty)
      ↔ FirstAt C i k ∧ (i = 0 → FirstTyped C params) := by
  rw [getForwardArgs_paramArg]
  by_cases hfirst : FirstAt C i k
  · by_cases hi₀ : i = 0
    · subst hi₀
      obtain ⟨a, g, hfind, hidx, hgk, hg, hlt⟩ := find?_position_zero hsize hi
      simp only [hfind, hidx, hfirst, true_and, forall_const, ← firstTyped_iff hsize hi hgk hg hlt,
        hty]
      constructor
      · rintro ⟨v, hv, htype⟩
        cases hv
        exact htype
      · exact fun h => ⟨_, rfl, h⟩
    · obtain ⟨a, hfind, hidx⟩ := find?_position_pos hsize hfirst hi₀
      simp only [hfind, hidx, hfirst, hi₀, true_and, false_implies, iff_true]
      exact ⟨_, rfl, wrapperTypes_firstAt hsize hfirst hty⟩
  · simp [find?_position_eq_none hsize hi hfirst, hfirst]

end Forward

/-! ## All values -/

/-- There is a value for the argument that has the type of its parameter. -/
def HasTypedValue (P : Process β δ) (C : Context) (F : FunctionInfo) (i : ℕ) (ty : Ty)
    (arg : Argument) : Prop :=
  match arg.forwardIdx with
  | some _ => ∃ v : LValue, getForwardArgs (paramArg i ty) (layoutOf F) (newLayoutOf C F) = .ok [v]
    ∧ v.type? ((newArgs C F.params).flatMap (·.types)) = some ty
  | none => ∃ t, captured P (paramArg i ty) arg = .ok [t] ∧ t.type = ty

theorem HasTypedValue.canPass (h : HasTypedValue P C F i ty arg) :
    CanPass P (layoutOf F) (newLayoutOf C F) (paramArg i ty, arg) := by
  unfold HasTypedValue at h
  unfold CanPass
  cases hf : arg.forwardIdx with
  | some k =>
    rw [hf] at h
    obtain ⟨v, hv, -⟩ := h
    exact ⟨[v], hv⟩
  | none =>
    rw [hf] at h
    obtain ⟨t, ht, -⟩ := h
    exact ⟨[t], ht⟩

/-- The value that is passed is the one there is. -/
theorem hasTypedValue_iff {v : LValue}
    (hp : Passed P (layoutOf F) (newLayoutOf C F) M (paramArg i ty, arg) [v]) :
    HasTypedValue P C F i ty arg
      ↔ v.type? ((newArgs C F.params).flatMap (·.types)) = some ty := by
  unfold HasTypedValue
  cases hf : arg.forwardIdx with
  | some k =>
    have hp' := hp
    rw [Passed, hf] at hp'
    dsimp only at hp' ⊢
    rw [hp']
    exact ⟨fun ⟨w, hw, htype⟩ => by cases hw; exact htype, fun h => ⟨v, rfl, h⟩⟩
  | none =>
    obtain ⟨c, rfl, hcap⟩ := hp.isValueFor_captured hf
    dsimp only
    rw [hcap]
    constructor
    · rintro ⟨t, ht, rfl⟩
      cases ht
      rw [Constant.type_map]
      rfl
    · intro h
      exact ⟨_, rfl, by rw [Constant.type_map]; exact Option.some.inj h⟩

theorem pushesTyped_iff_hasTypedValue (hret : F.returnsStruct = false)
    (hsize : C.size = F.params.length) : PushesTyped P M F C ↔ F.params ≠ []
      ∧ ∀ i ty arg, F.params[i]? = some ty → C.argumentMapping[i]? = some arg →
        HasTypedValue P C F i ty arg := by
  constructor
  · rintro ⟨HLL, newHLL, S, vs, hHLL, hnew, hargs, htypes⟩
    obtain ⟨hpos, -, rfl⟩ := ofFunction_eq_ok.1 hHLL
    rw [getNewLayout_eq hsize, Except.ok.injEq] at hnew
    subst hnew
    obtain ⟨⟨S₁, vs₁⟩, hargs₁, heq⟩ := Except.bind_eq_ok.1 hargs
    cases heq
    obtain ⟨-, hlen, hpassed⟩ := getInlineArgsFrom_values (P := P) hsize hargs₁
    refine ⟨hpos, fun i ty arg hty harg => ?_⟩
    obtain ⟨v, hv⟩ := exists_value hlen hty
    rw [hasTypedValue_iff (hpassed i ty arg v hty harg hv)]
    exact (map_type?_eq_iff hlen).1 htypes i ty v hty hv
  · rintro ⟨hpos, h⟩
    obtain ⟨S, vs, hargs⟩ := exists_getInlineArgsFrom hsize
      (fun i ty arg hty harg => (h i ty arg hty harg).canPass) ⟨M, []⟩
    obtain ⟨-, hlen, hpassed⟩ := getInlineArgsFrom_values (P := P) hsize hargs
    refine ⟨layoutOf F, newLayoutOf C F, S, vs, ofFunction_eq_ok.2 ⟨hpos, hret, rfl⟩,
      getNewLayout_eq hsize, Except.bind_eq_ok.2 ⟨_, hargs, rfl⟩, ?_⟩
    refine (map_type?_eq_iff hlen).2 fun i ty v hty hv => ?_
    obtain ⟨arg, harg⟩ := exists_argument hsize hty
    exact (hasTypedValue_iff (hpassed i ty arg v hty harg hv)).1 (h i ty arg hty harg)

/-- Every value of the call has the type of its parameter exactly when the function has
parameters, no placeholder occurs twice, the parameter that is found for the first argument has
its type, and every captured argument fits. -/
theorem getInlineArgs_typed_iff (hret : F.returnsStruct = false)
    (hsize : C.size = F.params.length)
    (hkind : ∀ (i : ℕ) ty arg, F.params[i]? = some ty → C.argumentMapping[i]? = some arg →
      KindMatches ty arg) :
    PushesTyped P M F C ↔ F.params ≠ [] ∧ C.placeholders.Nodup ∧ FirstTyped C F.params
      ∧ ∀ (i : ℕ) ty arg, F.params[i]? = some ty → C.argumentMapping[i]? = some arg →
        Fits P ty arg := by
  have hforward {i k : ℕ} {ty : Ty} (hi : C.argumentMapping[i]? = some (.forward k))
      (hty : F.params[i]? = some ty) : HasTypedValue P C F i ty (.forward k)
        ↔ FirstAt C i k ∧ (i = 0 → FirstTyped C F.params) :=
    getForwardArgs_typed_iff hsize hi hty
  have hcaptured {i : ℕ} {ty : Ty} {arg : Argument} (hi : C.argumentMapping[i]? = some arg)
      (hty : F.params[i]? = some ty) (hf : arg.forwardIdx = none) :
      HasTypedValue P C F i ty arg ↔ Fits P ty arg := by
    rw [HasTypedValue, hf]
    exact captured_typed_iff (hkind i ty arg hty hi) hf
  rw [pushesTyped_iff_hasTypedValue hret hsize, and_congr_right_iff]
  intro hpos
  constructor
  · intro h
    have hfirst {i k : ℕ} (hi : C.argumentMapping[i]? = some (.forward k)) :
        FirstAt C i k ∧ (i = 0 → FirstTyped C F.params) := by
      obtain ⟨ty, hty⟩ := exists_param hsize hi
      exact (hforward hi hty).1 (h i ty _ hty hi)
    refine ⟨Context.nodup_placeholders.2 fun i k hi => (hfirst hi).1.2, ?_, ?_⟩
    · intro k g j m hk
      exact (hfirst hk).2 rfl k g j m hk
    · intro i ty arg hty harg
      cases hf : arg.forwardIdx with
      | some k =>
        rw [Argument.forwardIdx_eq_some.1 hf]
        trivial
      | none => exact (hcaptured harg hty hf).1 (h i ty arg hty harg)
  · rintro ⟨hnodup, hfirst, hfits⟩ i ty arg hty harg
    cases hf : arg.forwardIdx with
    | some k =>
      rw [Argument.forwardIdx_eq_some.1 hf] at harg ⊢
      exact (hforward harg hty).2
        ⟨⟨harg, Context.nodup_placeholders.1 hnodup i k harg⟩, fun _ => hfirst⟩
    | none => exact (hcaptured harg hty hf).2 (hfits i ty arg hty harg)

section Samples

open Sample

attribute [local instance] BitcodeFormat.self

/-- A placeholder, a pointer to a registered function, a struct in a register and a number. -/
theorem getInlineArgs_typed_iff_mixed :
    let M : LModule Unit := define .empty 0 "g" [] []
    let P : Process (LModule Unit) Unit :=
      process [register 16 "g" [] M (by decide) isCString_g rfl rfl]
    PushesTyped P .empty (function 0 "f" [.int 32, .ptr (.func .void []), .int 64, .fp .double])
      { argumentMapping := [.forward 0, .ptr 16, .struct [1, 0, 0, 0, 2, 0, 0, 0],
        .float ⟨0⟩] } := by
  refine (getInlineArgs_typed_iff rfl rfl ?_).2 ⟨by decide, by decide, ?_, ?_⟩
  · intro i ty arg hty harg
    match i with
    | 0 | 2 => cases harg; trivial
    | 1 => cases hty; cases harg; rfl
    | 3 => cases hty; cases harg; exact ⟨_, rfl⟩
    | i + 4 => cases hty
  · intro k g j m hk _ hgk
    cases hk
    omega
  · intro i ty arg hty harg
    match i with
    | 0 | 3 => cases harg; trivial
    | 1 =>
      cases hty
      cases harg
      refine ⟨_, rfl, ?_⟩
      rintro _ ⟨⟩ F body ⟨⟩
      rfl
    | 2 => cases hty; cases harg; exact ⟨rfl, by decide⟩
    | i + 4 => cases hty

/-- A pointer to `void g()` that is passed as a pointer to `void (long)`. -/
theorem castFunction_not_typed :
    let M : LModule Unit := define .empty 0 "g" [] []
    let P : Process (LModule Unit) Unit :=
      process [register 16 "g" [] M (by decide) isCString_g rfl rfl]
    let F := function 0 "f" [.ptr (.func .void [.int 64])]
    let C : Context := { argumentMapping := [.ptr 16] }
    F.returnsStruct = false ∧ C.size = F.params.length
      ∧ (∀ (i : ℕ) ty arg, F.params[i]? = some ty → C.argumentMapping[i]? = some arg →
        KindMatches ty arg)
      ∧ ¬ PushesTyped P .empty F C := by
  intro M P F C
  refine ⟨rfl, rfl, ?_, ?_⟩
  · intro i ty arg hty harg
    match i with
    | 0 => cases hty; cases harg; rfl
    | i + 1 => cases hty
  · rintro ⟨HLL, newHLL, S, vs, hHLL, hnew, hargs, htypes⟩
    cases hHLL
    cases hnew
    cases hargs
    cases htypes

end Samples

end EasyJit
