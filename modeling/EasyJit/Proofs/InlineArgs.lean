import EasyJit.Proofs.Structs

/-!
# The values a wrapper passes

`GetInlineArgs` links in what the captured arguments refer to, in the order of the arguments, and
the constants it makes stand for what was captured (`getInlineArg_ok`, `getInlineArgsFrom_ok`). It
gets through exactly when each placeholder is found and each captured argument can be made a
constant (`getInlineArgsFrom_ok_iff`).
-/

namespace EasyJit

open LLVM Linker

section Scalars

variable {σ τ : Type} {f : σ → τ}

theorem scalarConstant_map (arg : Argument) (ty : Ty) :
    (scalarConstant arg ty).map (Constant.map f) = scalarConstant arg ty := by
  unfold scalarConstant
  split <;> rfl

/-- The constant that the runtime makes of a scalar has its value. -/
theorem getScalarArgument_eq {arg : Argument} (h : arg.IsScalar) (ty : Ty) :
    getScalarArgument (σ := σ) arg ty = (scalarConstant arg ty).map some := by
  cases arg with
  | int val =>
    cases ty with
    | vector n elem => cases elem <;> rfl
    | _ => rfl
  | float val =>
    cases ty with
    | vector n elem => cases elem <;> rfl
    | _ => rfl
  | ptr val => cases ty <;> rfl
  | _ => cases h

end Scalars

variable {β δ : Type} [BitcodeFormat β δ] {P : Process β δ} {FHLL wrapperHLL : HighLevelLayout}
  {argInF : HighLevelArg} {arg : Argument} {S S' : LinkState δ} {vs : List LValue}

/-- Constants that stand for the same thing in every module are stable. -/
theorem stable_of_forall {ts : Except Fault (List (Constant (Target δ)))} {cs : List LConstant}
    (h : ∀ M : LModule δ, ts = .ok (cs.map (denote M))) (M : LModule δ) :
    ∀ c ∈ cs, Stable M c := by
  intro c hc srcs
  have heq : cs.map (denote (M.linkAll srcs)) = cs.map (denote M) := by
    have h' := (h (M.linkAll srcs)).symm.trans (h M)
    exact Except.ok.inj h'
  exact List.map_inj_left.1 heq c hc

/-- What the runtime passes for an argument of the function: parameters of the wrapper, or stable
constants that stand for what was captured. -/
def Passed (P : Process β δ) (FHLL wrapperHLL : HighLevelLayout) (M : LModule δ)
    (x : HighLevelArg × Argument) (vs : List LValue) : Prop :=
  match x.2.forwardIdx with
  | some _ => getForwardArgs x.1 FHLL wrapperHLL = .ok vs
  | none => ∃ cs : List LConstant, vs = cs.map .const ∧ (∀ c ∈ cs, Stable M c)
    ∧ captured P x.1 x.2 = .ok (cs.map (denote M))

theorem Passed.linkAll {M : LModule δ} {x : HighLevelArg × Argument}
    (h : Passed P FHLL wrapperHLL M x vs) (srcs : List (LSource δ)) :
    Passed P FHLL wrapperHLL (M.linkAll srcs) x vs := by
  unfold Passed at h ⊢
  split at h
  · exact h
  · obtain ⟨cs, hvs, hst, hcap⟩ := h
    refine ⟨cs, hvs, fun c hc => (hst c hc).linkAll, ?_⟩
    rw [hcap, List.map_congr_left fun c hc => (hst c hc srcs).symm]

/-- An argument that can be passed. -/
def CanPass (P : Process β δ) (FHLL wrapperHLL : HighLevelLayout) (x : HighLevelArg × Argument) :
    Prop :=
  match x.2.forwardIdx with
  | some _ => ∃ vs, getForwardArgs (σ := Sym String) x.1 FHLL wrapperHLL = .ok vs
  | none => ∃ ts, captured P x.1 x.2 = .ok ts

/-! ## One argument -/

/-- What a number or an address is passed as stands for it. -/
theorem scalarConstant_denote {ty : Ty} {o : Option LConstant}
    (h : getScalarArgument arg ty = .ok o) (hs : arg.IsScalar) :
    ∃ c, o = some c ∧ ∀ M : LModule δ, scalarConstant arg ty = .ok (denote M c) := by
  rw [getScalarArgument_eq hs, Except.map_eq_ok] at h
  obtain ⟨c, hc, rfl⟩ := h
  refine ⟨c, rfl, fun M => ?_⟩
  rw [← scalarConstant_map (f := M.shape?), hc]
  rfl

/-- A number or an address is passed as a constant. -/
theorem getScalarArgument_of_scalarConstant {ty : Ty} {t : Constant (Target δ)}
    (h : scalarConstant arg ty = .ok t) (hs : arg.IsScalar) :
    ∃ c : LConstant, getScalarArgument arg ty = .ok (some c) := by
  rw [← scalarConstant_map (σ := Sym String) (f := fun _ => none), Except.map_eq_ok] at h
  obtain ⟨c, hc, -⟩ := h
  exact ⟨c, by rw [getScalarArgument_eq hs, hc]; rfl⟩

/-- A captured number stands for itself. -/
theorem captured_number {ty : Ty} {t : Constant (Target δ)}
    (hk : arg.kind = .int ∨ arg.kind = .float) (hty : firstType argInF = .ok ty)
    (ht : scalarConstant arg ty = .ok t) : captured P argInF arg = .ok [t] := by
  cases arg with
  | int | float => simp only [captured, hty, ht, bind, Except.bind]
  | _ => simp [Argument.kind] at hk

theorem structValues_denote {DL : DataLayout} {data : List UInt8} {tys : List Ty} {off : ℕ}
    {cs : List LConstant} (h : structValues DL data tys off = .ok cs) (M : LModule δ) :
    structValues DL data tys off = .ok (cs.map (denote M)) := by
  rw [← structValues_map (f := M.shape?), h]
  rfl

theorem types_of_firstType {ty : Ty} (h : firstType argInF = .ok ty) :
    ∃ tys, argInF.types = ty :: tys := by
  unfold firstType at h
  split at h
  · cases h
  · rename_i ty tys htys
    cases h
    exact ⟨tys, htys⟩

/-- What a round of the loop passes for an argument, and what it links in. -/
inductive InlinesArg (P : Process β δ) (FHLL wrapperHLL : HighLevelLayout)
    (argInF : HighLevelArg) (S : LinkState δ) : Argument → LinkState δ → List LValue → Prop
  | forward {k vs} (hvs : getForwardArgs argInF FHLL wrapperHLL = .ok vs) :
      InlinesArg P FHLL wrapperHLL argInF S (.forward k) S vs
  | int {val ty c} (hty : firstType argInF = .ok ty)
      (hc : getScalarArgument (.int val) ty = .ok (some c)) :
      InlinesArg P FHLL wrapperHLL argInF S (.int val) S [.const c]
  | float {val ty c} (hty : firstType argInF = .ok ty)
      (hc : getScalarArgument (.float val) ty = .ok (some c)) :
      InlinesArg P FHLL wrapperHLL argInF S (.float val) S [.const c]
  | ptr {p ty c linked S'} (hty : firstType argInF = .ok ty)
      (hc : getScalarArgument (.ptr p) ty = .ok (some c))
      (hlink : linkPointerIfPossible P.tracker S p ty = .ok (S', linked)) :
      InlinesArg P FHLL wrapperHLL argInF S (.ptr p) S' [.const (linked.getD c)]
  | structByPointer {data ty tys c S'} (hptr : argInF.structByPointer = true)
      (htys : argInF.types = .ptr ty :: tys)
      (hc : getGlobalStruct P.tracker P.layout S data (.ptr ty) = .ok (S', c)) :
      InlinesArg P FHLL wrapperHLL argInF S (.struct data) S' [.const c]
  | structByValue {data cs} (hptr : argInF.structByPointer = false)
      (hcs : structValues P.layout data argInF.types 0 = .ok cs) :
      InlinesArg P FHLL wrapperHLL argInF S (.struct data) S (cs.map .const)
  | module {fn c S'} (hlen : argInF.types.length = 1)
      (hc : linkModuleArgument S (P.modules fn).mod = .ok (S', c)) :
      InlinesArg P FHLL wrapperHLL argInF S (.module fn) S' [.const c]

theorem inlinesArg_of_ok (h : getInlineArg P FHLL wrapperHLL argInF arg S = .ok (S', vs)) :
    InlinesArg P FHLL wrapperHLL argInF S arg S' vs := by
  unfold getInlineArg at h
  cases arg with
  | forward k =>
    obtain ⟨vs', hvs, heq⟩ := Except.bind_eq_ok.1 h
    cases heq
    exact .forward hvs
  | int val =>
    simp only [Except.bind_eq_ok] at h
    obtain ⟨ty, hty, o, hc, h⟩ := h
    obtain ⟨c, rfl, -⟩ := scalarConstant_denote (δ := δ) hc trivial
    cases h
    exact .int hty hc
  | float val =>
    simp only [Except.bind_eq_ok] at h
    obtain ⟨ty, hty, o, hc, h⟩ := h
    obtain ⟨c, rfl, -⟩ := scalarConstant_denote (δ := δ) hc trivial
    cases h
    exact .float hty hc
  | ptr p =>
    simp only [Except.bind_eq_ok] at h
    obtain ⟨ty, hty, o, hc, ⟨S₁, linked⟩, hlink, h⟩ := h
    obtain ⟨c, rfl, -⟩ := scalarConstant_denote (δ := δ) hc trivial
    rw [Option.or_some] at h
    cases h
    exact .ptr hty hc hlink
  | struct data =>
    simp only at h
    split at h
    · rename_i hptr
      simp only [Except.bind_eq_ok] at h
      obtain ⟨ty, hty, ⟨S₁, c⟩, hc, heq⟩ := h
      cases heq
      obtain ⟨tys, htys⟩ := types_of_firstType hty
      cases ty with
      | ptr structTy => exact .structByPointer hptr htys hc
      | _ => cases hc
    · rename_i hptr
      obtain ⟨cs, hcs, heq⟩ := Except.bind_eq_ok.1 h
      cases heq
      exact .structByValue (Bool.eq_false_iff.2 hptr) hcs
  | module fn =>
    simp only at h
    split at h
    · cases h
    · rename_i hlen
      obtain ⟨⟨S₁, c⟩, hc, heq⟩ := Except.bind_eq_ok.1 h
      cases heq
      exact .module (not_not.1 hlen) hc

/-- A captured argument is passed as stable constants, which stand for it. -/
theorem getInlineArg_ok (h : getInlineArg P FHLL wrapperHLL argInF arg S = .ok (S', vs)) :
    S' = S.linkSources (argSources P argInF arg)
      ∧ Passed P FHLL wrapperHLL S'.mod (argInF, arg) vs := by
  cases inlinesArg_of_ok h with
  | forward hvs => exact ⟨rfl, hvs⟩
  | @int _ _ c hty hc | @float _ _ c hty hc =>
    obtain ⟨_, ⟨⟩, hc⟩ := scalarConstant_denote (δ := δ) hc trivial
    have hden := fun M => captured_number (P := P) (by simp [Argument.kind]) hty (hc M)
    exact ⟨rfl, [c], rfl, stable_of_forall hden _, hden _⟩
  | @ptr p ty c linked _ hty hc hlink =>
    obtain ⟨rfl, hst, ht⟩ := linkPointerIfPossible_ok hlink
    obtain ⟨_, ⟨⟩, hc⟩ := scalarConstant_denote (δ := δ) hc trivial
    refine ⟨rfl, [linked.getD c], rfl, ?_, ?_⟩
    · rw [List.forall_mem_singleton]
      cases linked with
      | some c' => exact hst c' rfl
      | none =>
        have hden (M : LModule δ) : (scalarConstant (.ptr p) ty).map ([·])
            = .ok ([c].map (denote M)) := by
          rw [hc M]
          rfl
        exact stable_of_forall hden _ c (List.mem_singleton_self c)
    · simp only [captured, hty, hc (S.linkSources (P.pointerSources p)).mod, ht, bind, Except.bind]
      cases linked <;> rfl
  | @structByPointer _ ty _ c _ hptr htys hc =>
    obtain ⟨ps, hps, rfl, hst, ht⟩ := getGlobalStruct_ok hc
    have hty : firstType argInF = .ok (.ptr ty) := by rw [firstType, htys]
    refine ⟨by simp [argSources, hptr, htys, hps], [c], rfl, by simpa using hst, ?_⟩
    simp only [captured, hptr, if_true, hty, ht, bind, Except.bind]
    rfl
  | @structByValue data cs hptr hcs =>
    have hden (M : LModule δ) : captured P argInF (.struct data) = .ok (cs.map (denote M)) := by
      simp only [captured, hptr, structValues_denote hcs M, Bool.false_eq_true, if_false]
    exact ⟨by simp [argSources, hptr], cs, rfl, stable_of_forall hden _, hden _⟩
  | @module _ c _ hlen hc =>
    obtain ⟨rfl, hst, ht⟩ := linkModuleArgument_ok hc
    refine ⟨rfl, [c], rfl, by simpa using hst, ?_⟩
    simp only [captured, hlen, ne_eq, not_true_eq_false, if_false, ht, bind, Except.bind]
    rfl

/-- A captured argument that stands for constants is passed. -/
theorem getInlineArg_of_canPass (h : CanPass P FHLL wrapperHLL (argInF, arg)) (S : LinkState δ) :
    ∃ r, getInlineArg P FHLL wrapperHLL argInF arg S = .ok r := by
  unfold CanPass at h
  cases arg with
  | forward k =>
    obtain ⟨vs, hvs⟩ := h
    exact ⟨(S, vs), by simp only [getInlineArg, hvs, bind, Except.bind]⟩
  | int val | float val =>
    simp only [Argument.forwardIdx, captured, Except.bind_eq_ok] at h
    obtain ⟨ts, ty, hty, t, ht, -⟩ := h
    obtain ⟨c, hc⟩ := getScalarArgument_of_scalarConstant ht trivial
    exact ⟨(S, [.const c]), by simp only [getInlineArg, hty, hc, bind, Except.bind]⟩
  | ptr p =>
    simp only [Argument.forwardIdx, captured, Except.bind_eq_ok] at h
    obtain ⟨ts, ty, hty, t, ht, o, ho, -⟩ := h
    obtain ⟨c, hc⟩ := getScalarArgument_of_scalarConstant ht trivial
    obtain ⟨S₁, linked, hlink⟩ := linkPointerIfPossible_of_linkTarget (S := S) ho
    exact ⟨(S₁, [.const (linked.getD c)]), by
      simp only [getInlineArg, hty, hc, hlink, Option.or_some, bind, Except.bind]⟩
  | struct data =>
    obtain ⟨ts, h⟩ := h
    simp only [captured] at h
    split at h
    · rename_i hptr
      simp only [Except.bind_eq_ok] at h
      obtain ⟨ty, hty, t, ht, -⟩ := h
      cases ty with
      | ptr structTy =>
        obtain ⟨S₁, c, hc⟩ := getGlobalStruct_of_structTarget (S := S) ht
        exact ⟨(S₁, [.const c]), by
        simp only [getInlineArg, hptr, if_true, hty, hc, bind, Except.bind]⟩
      | _ => cases ht
    · rename_i hptr
      rw [← structValues_map (f := S.mod.shape?), Except.map_eq_ok] at h
      obtain ⟨cs, hcs, -⟩ := h
      exact ⟨(S, cs.map .const), by
        simp only [getInlineArg, hptr, hcs, bind, Except.bind, Bool.false_eq_true, if_false]⟩
  | module fn =>
    obtain ⟨ts, h⟩ := h
    simp only [captured] at h
    split at h
    · cases h
    · rename_i hlen
      simp only [Except.bind_eq_ok] at h
      obtain ⟨t, ht, -⟩ := h
      rw [← linkedConstant_denote (S := S) (moduleSource_defines P fn), Except.map_eq_ok] at ht
      obtain ⟨c, hc, -⟩ := ht
      exact ⟨(S.linkSource (P.moduleSource fn), [.const c]), by
        simp only [getInlineArg, hlen, if_false, linkModuleArgument_eq, hc, Except.map, bind,
          Except.bind]⟩

/-! ## All arguments -/

theorem getInlineArgsFrom_ok : ∀ {argsInF : List HighLevelArg} {args : List Argument}
    {S S' : LinkState δ} {vs : List LValue},
    getInlineArgsFrom P FHLL wrapperHLL argsInF args S = .ok (S', vs) →
    S' = S.linkSources ((argsInF.zip args).flatMap fun x => argSources P x.1 x.2)
      ∧ args.length ≤ argsInF.length
      ∧ ∃ vss, vs = vss.flatten
        ∧ List.Forall₂ (Passed P FHLL wrapperHLL S'.mod) (argsInF.zip args) vss
  | [], [], S, S', vs, h | _ :: _, [], S, S', vs, h => by
    simp only [getInlineArgsFrom, Except.ok.injEq, Prod.mk.injEq] at h
    obtain ⟨rfl, rfl⟩ := h
    exact ⟨rfl, Nat.zero_le _, [], rfl, .nil⟩
  | [], _ :: _, _, _, _, h => by cases h
  | argInF :: argsInF, arg :: args, S, S', vs, h => by
    simp only [getInlineArgsFrom, Except.bind_eq_ok] at h
    obtain ⟨⟨S₁, vs₁⟩, h₁, ⟨S₂, vs₂⟩, h₂, heq⟩ := h
    cases heq
    obtain ⟨rfl, hpassed⟩ := getInlineArg_ok h₁
    obtain ⟨rfl, hlen, vss, rfl, hvss⟩ := getInlineArgsFrom_ok h₂
    refine ⟨?_, Nat.succ_le_succ hlen, vs₁ :: vss, rfl, .cons ?_ hvss⟩
    · rw [← LinkState.linkSources_append]
      rfl
    · rw [LinkState.mod_linkSources]
      exact hpassed.linkAll _

theorem getInlineArgsFrom_of_canPass : ∀ {argsInF : List HighLevelArg} {args : List Argument},
    args.length ≤ argsInF.length → (∀ x ∈ argsInF.zip args, CanPass P FHLL wrapperHLL x) →
    ∀ S : LinkState δ, ∃ r, getInlineArgsFrom P FHLL wrapperHLL argsInF args S = .ok r
  | _, [], _, _, S => ⟨(S, []), by simp only [getInlineArgsFrom]⟩
  | [], _ :: _, hlen, _, _ => by simp at hlen
  | argInF :: argsInF, arg :: args, hlen, h, S => by
    rw [List.zip_cons_cons, List.forall_mem_cons] at h
    obtain ⟨⟨S₁, vs₁⟩, h₁⟩ := getInlineArg_of_canPass h.1 S
    obtain ⟨⟨S₂, vs₂⟩, h₂⟩ := getInlineArgsFrom_of_canPass (Nat.le_of_succ_le_succ hlen) h.2 S₁
    exact ⟨(S₂, vs₁ ++ vs₂), by simp only [getInlineArgsFrom, h₁, h₂, bind, Except.bind]⟩

end EasyJit
