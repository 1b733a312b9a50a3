import EasyJit.Meaning
import EasyJit.Proofs.EmitCodes
import EasyJit.Proofs.Variables

/-!
# What linking makes of a function

Every source is sound when it is linked in, so that the names of the module mean what the program
does (`loaded_soundNames`), and each symbol that is passed for an argument is the entry it was
linked in for (`getInlineArg_holds`).
-/

namespace EasyJit

open LLVM Linker

/-! ## The symbols of constants -/

section Symbols

variable {σ τ : Type} {f : σ → τ} {DL : DataLayout}

namespace Constant

mutual

theorem symbols_map : ∀ c : Constant σ, (c.map f).symbols = c.symbols.map f
  | .int _ _ | .fp _ _ | .null _ | .intToPtr _ _ | .bytes _ _ => rfl
  | .global s _ => by simp only [map, symbols, List.map_cons, List.map_nil]
  | .splat _ c => by simp only [map, symbols, symbols_map c]
  | .pointerCast c _ => by simp only [map, symbols, symbols_map c]
  | .address _ c => by simp only [map, symbols, symbols_map c]
  | .struct _ cs => by simp only [map, symbols, symbolsList_map cs]
  | .array _ cs => by simp only [map, symbols, symbolsList_map cs]

theorem symbolsList_map : ∀ cs : List (Constant σ),
    symbolsList (mapList f cs) = (symbolsList cs).map f
  | [] => rfl
  | c :: cs => by
    simp only [mapList, symbolsList, symbols_map c, symbolsList_map cs, List.map_append]

end

/-- A constant that was made without symbols has none. -/
theorem symbols_map_empty {f : Empty → σ} (c : Constant Empty) : (c.map f).symbols = [] := by
  rw [symbols_map]
  cases c.symbols with
  | nil => rfl
  | cons s _ => exact s.elim

end Constant

theorem symbols_scalar {arg : Argument} {ty : Ty} {c : Constant σ}
    (h : getScalarArgument arg ty = .ok (some c)) (hs : arg.IsScalar) : c.symbols = [] := by
  rw [getScalarArgument_eq hs, ← scalarConstant_map (f := (Empty.elim : Empty → σ))] at h
  simp only [Except.map_eq_ok] at h
  obtain ⟨_, ⟨c₀, -, rfl⟩, ⟨⟩⟩ := h
  exact c₀.symbols_map_empty

theorem symbols_getConstantFromRaw {ty : Ty} {raw : List UInt8} {c : Constant σ} {n : ℕ}
    (h : getConstantFromRaw DL ty raw = .ok (some c, n)) : c.symbols = [] := by
  rw [← getConstantFromRaw_map (f := (Empty.elim : Empty → σ)), Except.map_eq_ok] at h
  obtain ⟨r, -, hr⟩ := h
  obtain ⟨c₀, -, rfl⟩ := Option.map_eq_some_iff.1 (Prod.mk.inj hr).1
  exact c₀.symbols_map_empty

theorem symbols_structValues {data : List UInt8} {tys : List Ty} {offset : ℕ}
    {cs : List (Constant σ)} (h : structValues DL data tys offset = .ok cs) :
    ∀ c ∈ cs, c.symbols = [] := by
  rw [← structValues_map (f := (Empty.elim : Empty → σ)), Except.map_eq_ok] at h
  obtain ⟨cs₀, -, rfl⟩ := h
  intro c hc
  obtain ⟨c₀, -, rfl⟩ := List.mem_map.1 hc
  exact c₀.symbols_map_empty

theorem symbols_getForwardArgs {argInF : HighLevelArg} {FHLL wrapperHLL : HighLevelLayout}
    {vs : List (Value σ)} (h : getForwardArgs argInF FHLL wrapperHLL = .ok vs) :
    vs.flatMap Value.symbols = [] := by
  unfold getForwardArgs at h
  split at h
  · cases h
  · cases h
    simp [Value.symbols, List.flatMap_map]

/-! ### Structs -/

variable {α : Type} {R : σ → α → Prop} {funcs : Ptr → Option (Constant σ)} {g : Ptr → List α}

theorem eq_of_checkElements : ∀ {tys : List Ty} {os : List (Option (Constant σ))}
    {cs : List (Constant σ)}, checkElements tys os = .ok cs → os = cs.map some
  | ty :: tys, some c :: os, cs, h => by
    obtain ⟨rest, hrest, h⟩ := Except.bind_eq_ok.1 h
    split_ifs at h
    cases h
    rw [eq_of_checkElements hrest]
    rfl
  | [], [], _, h => by
    cases h
    rfl
  | _ :: _, none :: _, _, h | [], _ :: _, _, h | _ :: _, [], _, h => by cases h

/-- The elements of an array, one after the other. -/
theorem symbols_elements {build : ℕ → Except Fault (Option (Constant σ))}
    {pointers : ℕ → Except Fault (List (Ptr × Ty))} : ∀ {fields : List ℕ}
    {cs : List (Constant σ)} {pss : List (List (Ptr × Ty))},
    (∀ i ∈ fields, ∀ c ps, build i = .ok (some c) → pointers i = .ok ps →
      List.Forall₂ R c.symbols (ps.flatMap fun x => g x.1)) →
    fields.mapM build = .ok (cs.map some) → fields.mapM pointers = .ok pss →
    List.Forall₂ R (Constant.symbolsList cs) (pss.flatten.flatMap fun x => g x.1)
  | [], cs, pss, _, hcs, hpss => by
    rw [Except.mapM_eq_ok, List.forall₂_nil_left_iff] at hcs hpss
    rw [List.map_eq_nil_iff.1 hcs, hpss]
    exact .nil
  | i :: fields, cs, pss, h, hcs, hpss => by
    rw [Except.mapM_eq_ok, List.forall₂_cons_left_iff] at hcs hpss
    obtain ⟨o, os, hc, hos, heq⟩ := hcs
    obtain ⟨ps, pss, hps, hpss, rfl⟩ := hpss
    obtain ⟨c, cs, rfl, rfl, rfl⟩ := List.map_eq_cons_iff.1 heq
    rw [← Except.mapM_eq_ok] at hos hpss
    rw [List.forall_mem_cons] at h
    rw [Constant.symbolsList, List.flatten_cons, List.flatMap_append]
    exact List.rel_append (h.1 c ps hc hps) (symbols_elements h.2 hos hpss)

mutual

/-- The symbols of the initialiser of a struct are those of the functions it points to, in
order. -/
theorem symbols_struct (hfuncs : ∀ p c, funcs p = some c → List.Forall₂ R c.symbols (g p)) :
    ∀ {ty : Ty} {raw : List UInt8} {c : Constant σ} {ps : List (Ptr × Ty)},
    storeStructFieldAsGlobal DL funcs ty raw = .ok (some c) → structPointers DL ty raw = .ok ps →
    List.Forall₂ R c.symbols (ps.flatMap fun x => g x.1)
  | .struct packed fields, raw, c, ps, hc, hps => by
    simp only [storeStructFieldAsGlobal, Except.bind_eq_ok] at hc
    obtain ⟨os, hos, cs, hcs, heq⟩ := hc
    cases heq
    rw [eq_of_checkElements hcs] at hos
    rw [structPointers] at hps
    exact symbols_fields hfuncs hos hps
  | .array n elem, raw, c, ps, hc, hps => by
    simp only [storeStructFieldAsGlobal, Except.bind_eq_ok] at hc
    obtain ⟨os, hos, cs, hcs, heq⟩ := hc
    cases heq
    rw [eq_of_checkElements hcs] at hos
    rw [structPointers_array, Except.map_eq_ok] at hps
    obtain ⟨pss, hpss, rfl⟩ := hps
    refine symbols_elements (fun i _ c ps hc hps => ?_) hos hpss
    rw [Nat.mul_comm] at hps
    exact symbols_struct hfuncs hc hps
  | .ptr (.func ret params), raw, c, ps, hc, hps => by
    simp only [storeStructFieldAsGlobal, structPointers, Except.bind_eq_ok] at hc hps
    obtain ⟨p, hp, hc⟩ := hc
    obtain ⟨p', hp', hps⟩ := hps
    rw [hp] at hp'
    cases hp'
    by_cases hp0 : p = 0
    · simp only [hp0, ne_eq, not_true_eq_false, if_false, Except.ok.injEq, Option.some.injEq]
        at hc hps
      rw [← hc, ← hps]
      exact .nil
    · simp only [hp0, ne_eq, not_false_eq_true, if_true, Except.ok.injEq] at hc hps
      rw [← hps, List.flatMap_singleton]
      exact hfuncs p c hc
  | .ptr (.int _), raw, _, _, hc, _ | .ptr (.fp _), raw, _, _, hc, _
  | .ptr (.ptr _), raw, _, _, hc, _ | .ptr (.vector _ _), raw, _, _, hc, _
  | .ptr (.array _ _), raw, _, _, hc, _ | .ptr (.struct _ _), raw, _, _, hc, _
  | .ptr .void, raw, _, _, hc, _ => by
    obtain ⟨_, -, h⟩ := Except.bind_eq_ok.1 hc
    cases h
  | .int n, raw, c, ps, hc, hps | .fp k, raw, c, ps, hc, hps | .vector n ty, raw, c, ps, hc, hps
  | .func ret tys, raw, c, ps, hc, hps | .void, raw, c, ps, hc, hps => by
    obtain ⟨⟨_, n⟩, hget, heq⟩ := Except.bind_eq_ok.1 hc
    cases heq
    obtain ⟨_, -, heq⟩ := Except.bind_eq_ok.1 hps
    cases heq
    rw [symbols_getConstantFromRaw hget]
    exact .nil

theorem symbols_fields (hfuncs : ∀ p c, funcs p = some c → List.Forall₂ R c.symbols (g p)) :
    ∀ {tys : List Ty} {offsets : List ℕ} {raw : List UInt8} {cs : List (Constant σ)}
    {ps : List (Ptr × Ty)}, fieldsAsGlobal DL funcs tys offsets raw = .ok (cs.map some) →
    fieldPointers DL tys offsets raw = .ok ps →
    List.Forall₂ R (Constant.symbolsList cs) (ps.flatMap fun x => g x.1)
  | ty :: tys, offset :: offsets, raw, cs, ps, hcs, hps => by
    simp only [fieldsAsGlobal, fieldPointers, Except.bind_eq_ok, Except.ok.injEq] at hcs hps
    obtain ⟨o, ho, os, hos, heq⟩ := hcs
    obtain ⟨ps₁, h₁, ps₂, h₂, rfl⟩ := hps
    obtain ⟨c, cs, rfl, rfl, rfl⟩ := List.map_eq_cons_iff.1 heq.symm
    rw [Constant.symbolsList, List.flatMap_append]
    exact List.rel_append (symbols_struct hfuncs ho h₁) (symbols_fields hfuncs hos h₂)
  | [], _, _, cs, _, hcs, hps | _ :: _, [], _, cs, _, hcs, hps => by
    simp only [fieldsAsGlobal, fieldPointers, Except.ok.injEq] at hcs hps
    rw [List.map_eq_nil_iff.1 hcs.symm, ← hps]
    exact .nil

end

end Symbols

variable {β δ V : Type} [BitcodeFormat β δ] {I : Interpretation Op GlobalInfo V}
  {env : String → ℕ → V} {P : Process β δ} {C : Context} {addr : Ptr}

/-! ## What is passed for an argument -/

section Arguments

variable {S S' : LinkState δ} {src : LSource δ} {p : Ptr} {ty : Ty} {vs : List LValue}

theorem symbols_linkedConstant {c : LConstant} (h : linkedConstant S src ty = .ok c) :
    c.symbols = [.loc (S.mod.next + src.mod.next)] := by
  unfold linkedConstant at h
  split at h
  · cases h
    split <;> rfl
  · cases h
    rfl
  · cases h

/-- The symbols of what was linked in are the entries of the sources. -/
def Holds (I : Interpretation Op GlobalInfo V) (env : String → ℕ → V) (M : LModule δ)
    (ss : List (Sym String)) (srcs : List (LSource δ)) : Prop :=
  List.Forall₂ (M.HoldsEntry I env) ss srcs

theorem Holds.linkAll {M : LModule δ} {ss : List (Sym String)} {srcs srcs' : List (LSource δ)}
    (h : Holds I env M ss srcs) (hM : M.Sound I env) (hsrcs : M.SoundAll I env srcs') :
    Holds I env (M.linkAll srcs') ss srcs :=
  h.imp fun _ _ hs => hs.linkAll hM hsrcs

theorem linkedConstant_holds {c : LConstant} (hM : S.mod.Sound I env)
    (hsrc : src.Sound I env S.mod) (h : linkedConstant S src ty = .ok c) :
    Holds I env (S.linkSource src).mod c.symbols [src] := by
  rw [symbols_linkedConstant h]
  exact .cons (Module.holdsEntry_linkSource hM hsrc) .nil

theorem linkPointerIfPossible_holds {c : LConstant} (hM : S.mod.Sound I env)
    (hsrcs : S.mod.SoundAll I env (P.pointerSources p))
    (h : linkPointerIfPossible P.tracker S p ty = .ok (S', some c)) :
    Holds I env S'.mod c.symbols (P.pointerSources p) := by
  rw [linkPointerIfPossible_eq] at h
  cases hsrc : P.source? p with
  | error e => simp [hsrc] at h
  | ok o =>
    cases o with
    | none => simp [hsrc] at h
    | some src =>
      simp only [hsrc, Except.map_eq_ok, Prod.mk.injEq, Option.some.injEq] at h
      obtain ⟨c', hc, rfl, rfl⟩ := h
      have hp : P.pointerSources p = [src] := by simp [Process.pointerSources, hsrc]
      rw [hp] at hsrcs ⊢
      exact linkedConstant_holds hM hsrcs.1 hc

/-- What was linked in for the pointers of a struct holds the entries of their sources. -/
def FuncsHold (I : Interpretation Op GlobalInfo V) (env : String → ℕ → V) (P : Process β δ)
    (M : LModule δ) (funcs : Funcs (Sym String)) : Prop :=
  ∀ p c, (p, some c) ∈ funcs → Holds I env M c.symbols (P.pointerSources p)

theorem funcsHold_nil {M : LModule δ} : FuncsHold I env P M [] :=
  fun _ _ hf => absurd hf List.not_mem_nil

theorem FuncsHold.lookup {M : LModule δ} {funcs : Funcs (Sym String)} {c : LConstant}
    (h : FuncsHold I env P M funcs) (hc : funcs.lookup p = some c) :
    Holds I env M c.symbols (P.pointerSources p) := by
  obtain ⟨⟨p', o⟩, hfind, rfl⟩ := Option.map_eq_some_iff.1 (Option.join_eq_some_iff.1 hc)
  have hp : p' = p := by simpa using List.find?_some hfind
  exact h p c (hp ▸ List.mem_of_find?_eq_some hfind)

theorem leaves_hold : ∀ {ps : List (Ptr × Ty)} {st st' : LinkState δ × Funcs (Sym String)},
    ps.foldlM (linkLeaf P.tracker) st = .ok st' → st.1.mod.Sound I env →
    st.1.mod.SoundAll I env (ps.flatMap fun x => P.pointerSources x.1) →
    FuncsHold I env P st.1.mod st.2 → FuncsHold I env P st'.1.mod st'.2
  | [], _, _, h, _, _, hf => by
    cases h
    exact hf
  | (p, ty) :: ps, st, st', h, hM, hsrcs, hf => by
    simp only [List.foldlM_cons, linkLeaf, Except.bind_eq_ok] at h
    obtain ⟨_, ⟨⟨S₁, c⟩, h₁, heq⟩, h⟩ := h
    cases heq
    obtain ⟨rfl, -, -⟩ := linkPointerIfPossible_ok h₁
    rw [List.flatMap_cons, Module.soundAll_append] at hsrcs
    refine leaves_hold h ?_ ?_ ?_
    · rw [LinkState.mod_linkSources]
      exact hM.linkAll hsrcs.1
    · rw [LinkState.mod_linkSources]
      exact hsrcs.2
    · intro p' c' hmem
      rcases List.mem_cons.1 hmem with heq | hmem
      · cases heq
        exact linkPointerIfPossible_holds hM hsrcs.1 h₁
      · rw [LinkState.mod_linkSources]
        exact (hf p' c' hmem).linkAll hM hsrcs.1

theorem getGlobalStruct_holds {data : List UInt8} {c : LConstant} {ps : List (Ptr × Ty)}
    (hM : S.mod.Sound I env) (hps : structPointers P.layout ty data = .ok ps)
    (hsrcs : S.mod.SoundAll I env (ps.flatMap fun x => P.pointerSources x.1))
    (h : getGlobalStruct P.tracker P.layout S data (.ptr ty) = .ok (S', c)) :
    Holds I env S'.mod c.symbols (ps.flatMap fun x => P.pointerSources x.1) := by
  simp only [getGlobalStruct, Except.bind_eq_ok, storeStructFieldPrepare_eq_ok] at h
  obtain ⟨⟨S₁, funcs⟩, ⟨ps', hps', hleaves⟩, o, ho, h⟩ := h
  rw [hps] at hps'
  cases hps'
  have hf : FuncsHold I env P S₁.mod funcs := leaves_hold hleaves hM hsrcs funcsHold_nil
  cases o with
  | none => cases h
  | some c₀ =>
    simp only at h
    split_ifs at h
    cases h
    rw [Constant.symbols]
    exact symbols_struct (fun p c hc => hf.lookup hc) ho hps

theorem linkModuleArgument_holds {fn : ModulePtr} {c : LConstant} (hM : S.mod.Sound I env)
    (hsrc : (P.moduleSource fn).Sound I env S.mod)
    (h : linkModuleArgument S (P.modules fn).mod = .ok (S', c)) :
    Holds I env S'.mod c.symbols [P.moduleSource fn] := by
  rw [linkModuleArgument_eq, Except.map_eq_ok] at h
  obtain ⟨c', hc, heq⟩ := h
  cases heq
  exact linkedConstant_holds hM hsrc hc

/-- The values for an argument refer to the entries of the modules that were linked in for it. -/
theorem getInlineArg_holds {FHLL wrapperHLL : HighLevelLayout} {argInF : HighLevelArg}
    {arg : Argument} (hM : S.mod.Sound I env)
    (hsrcs : S.mod.SoundAll I env (argSources P argInF arg))
    (h : getInlineArg P FHLL wrapperHLL argInF arg S = .ok (S', vs)) :
    Holds I env S'.mod (vs.flatMap Value.symbols) (argSources P argInF arg) := by
  have hone (c : LConstant) : [Value.const c].flatMap Value.symbols = c.symbols := by
    rw [List.flatMap_singleton]
    rfl
  cases inlinesArg_of_ok h with
  | forward hvs =>
    rw [symbols_getForwardArgs hvs]
    exact .nil
  | int _ hc | float _ hc =>
    rw [hone, symbols_scalar hc trivial]
    exact .nil
  | @ptr p _ c linked _ _ hc hlink =>
    rw [hone]
    cases linked with
    | some c' => exact linkPointerIfPossible_holds hM hsrcs hlink
    | none =>
      have hnone : P.pointerSources p = [] := by
        rw [linkPointerIfPossible_eq] at hlink
        cases hsrc : P.source? p with
        | error e => simp [hsrc] at hlink
        | ok o => cases o <;> simp [hsrc, Process.pointerSources, Except.map_eq_ok] at hlink ⊢
      rw [Option.getD_none, symbols_scalar hc trivial, argSources, hnone]
      exact .nil
  | @structByPointer data ty _ _ _ hptr htys hc =>
    obtain ⟨ps, hps, -⟩ := getGlobalStruct_ok hc
    have hargs : argSources P argInF (.struct data)
        = ps.flatMap fun x => P.pointerSources x.1 := by simp [argSources, hptr, htys, hps]
    rw [hargs] at hsrcs ⊢
    rw [hone]
    exact getGlobalStruct_holds hM hps hsrcs hc
  | @structByValue data cs hptr hcs =>
    have hnil : (cs.map Value.const).flatMap Value.symbols = [] := by
      rw [List.flatMap_map, List.flatMap_eq_nil_iff]
      exact symbols_structValues hcs
    have hargs : argSources P argInF (.struct data) = [] := by simp [argSources, hptr]
    rw [hnil, hargs]
    exact .nil
  | module _ hc =>
    rw [hone]
    exact linkModuleArgument_holds hM hsrcs.1 hc

/-- The same of all arguments, in the module that all are linked into. -/
theorem getInlineArgsFrom_holds {FHLL wrapperHLL : HighLevelLayout} :
    ∀ {argsInF : List HighLevelArg} {args : List Argument} {S S' : LinkState δ} {vs : List LValue},
    getInlineArgsFrom P FHLL wrapperHLL argsInF args S = .ok (S', vs) → S.mod.Sound I env →
    S.mod.SoundAll I env ((argsInF.zip args).flatMap fun x => argSources P x.1 x.2) →
    ∃ vss, vs = vss.flatten ∧ List.Forall₂ (fun x vs => Passed P FHLL wrapperHLL S'.mod x vs
      ∧ Holds I env S'.mod (vs.flatMap Value.symbols) (argSources P x.1 x.2)) (argsInF.zip args) vss
  | [], [], S, S', vs, h, _, _ | _ :: _, [], S, S', vs, h, _, _ => by
    simp only [getInlineArgsFrom, Except.ok.injEq, Prod.mk.injEq] at h
    obtain ⟨rfl, rfl⟩ := h
    exact ⟨[], rfl, .nil⟩
  | [], _ :: _, _, _, _, h, _, _ => by cases h
  | argInF :: argsInF, arg :: args, S, S', vs, h, hM, hsrcs => by
    simp only [getInlineArgsFrom, Except.bind_eq_ok] at h
    obtain ⟨⟨S₁, vs₁⟩, h₁, ⟨S₂, vs₂⟩, h₂, heq⟩ := h
    cases heq
    rw [List.zip_cons_cons, List.flatMap_cons, Module.soundAll_append] at hsrcs
    have hholds := getInlineArg_holds hM hsrcs.1 h₁
    obtain ⟨rfl, hpassed⟩ := getInlineArg_ok h₁
    rw [LinkState.mod_linkSources] at hholds hpassed
    have hM₁ := hM.linkAll hsrcs.1
    obtain ⟨vss, rfl, hvss⟩ := getInlineArgsFrom_holds h₂ (by rwa [LinkState.mod_linkSources])
      (by rw [LinkState.mod_linkSources]; exact hsrcs.2)
    obtain ⟨rfl, -⟩ := getInlineArgsFrom_ok h₂
    refine ⟨vs₁ :: vss, rfl, .cons ?_ hvss⟩
    simp only [LinkState.mod_linkSources]
    exact ⟨hpassed.linkAll _, hholds.linkAll hM₁ hsrcs.2⟩

/-- Where each argument is one parameter, so of the one value for each. -/
theorem getInlineArgsFrom_holds_values {FHLL wrapperHLL : HighLevelLayout} {params : List Ty}
    (hM : S.mod.Sound I env)
    (hsrcs : S.mod.SoundAll I env (contextSources P (params.mapIdx paramArg) C))
    (h : getInlineArgsFrom P FHLL wrapperHLL (params.mapIdx paramArg) C.argumentMapping S
      = .ok (S', vs)) :
    ∀ (i : ℕ) ty arg v, params[i]? = some ty → C.argumentMapping[i]? = some arg →
      vs[i]? = some v → Holds I env S'.mod v.symbols (argSources P (paramArg i ty) arg) := by
  obtain ⟨vss, rfl, hvss⟩ := getInlineArgsFrom_holds h hM hsrcs
  have hone : ∀ l ∈ vss, l.length = 1 := by
    intro l hl
    obtain ⟨k, hk, rfl⟩ := List.getElem_of_mem hl
    have hp := (hvss.get (hvss.length_eq ▸ hk) hk).1
    simp only [List.get_eq_getElem, List.getElem_zip, List.getElem_mapIdx] at hp
    exact hp.length
  obtain ⟨as, rfl, hflat⟩ := flatten_of_length_one hone
  rw [hflat]
  intro i ty arg v hty harg hv
  obtain ⟨hi, rfl⟩ := List.getElem?_eq_some_iff.1 hv
  obtain ⟨hip, rfl⟩ := List.getElem?_eq_some_iff.1 hty
  obtain ⟨hia, rfl⟩ := List.getElem?_eq_some_iff.1 harg
  have hp := (hvss.get (i := i) (by simp [hip, hia]) (by simpa using hi)).2
  simpa using hp

end Arguments

/-! ## The module of a function -/

section Loaded

variable {M : LModule δ} {name : String} {src : LSource δ}

theorem Process.Sound.source (hP : P.Sound I env) {p : Ptr} (h : P.source? p = .ok (some src)) :
    src.mod.Sound I env := by
  unfold Process.source? at h
  split at h
  · cases h
  · rename_i r hr
    split at h
    · cases h
    · rename_i LM hLM
      cases h
      exact hP.means r (List.mem_of_find?_eq_some hr) LM hLM

theorem Process.Sound.callee (hP : P.Sound I env) (h : src ∈ P.calleeSources name) :
    src.mod.Sound I env ∧ src.mod.defines src.entry = true := by
  unfold Process.calleeSources at h
  split at h
  · cases h
  · rename_i r hr
    obtain ⟨src', hsrc', rfl⟩ := List.mem_map.1 h
    rw [mem_pointerSources] at hsrc'
    have hsound := hP.source hsrc'
    refine ⟨hsound, ?_⟩
    have hname : r.info.name = name := by simpa using List.find?_some hr
    -- the address of the callee is registered under no other name
    have hentry : src'.entry = name := by
      unfold Process.source? at hsrc'
      split at hsrc'
      · cases hsrc'
      · rename_i r' hr'
        have hfptr : r'.fptr = r.fptr := by simpa using List.find?_some hr'
        have heq := hP.names r' (List.mem_of_find?_eq_some hr') r (List.mem_of_find?_eq_some hr)
          hfptr
        split at hsrc'
        · cases hsrc'
        · cases hsrc'
          exact heq.trans hname
    exact hentry ▸ (source?_ok hsrc').1

/-- Once the callees are linked in, the module means by each name what the program does, and so does
what it finds by the function's own. -/
theorem loaded_sound (hP : P.Sound I env) (h : loaded P addr = .ok (name, M)) :
    M.Sound I env ∧ M.Finds I env name := by
  obtain ⟨r, LM, F, hr, hLM, rfl, -, rfl⟩ := loaded_ok h
  have hmem := List.mem_of_find?_eq_some hr
  have hLM' := hP.means r hmem LM hLM
  have hcallee : ∀ src ∈ (calledNames LM F).flatMap P.calleeSources,
      src.mod.Sound I env ∧ src.mod.defines src.entry = true := by
    intro src hsrc
    obtain ⟨n, -, hsrc⟩ := List.mem_flatMap.1 hsrc
    exact hP.callee hsrc
  have hall : LM.SoundAll I env ((calledNames LM F).flatMap P.calleeSources) :=
    Module.soundAll_of (fun S hS => (hcallee S hS).2) (fun S hS m _ => (hcallee S hS).1 m)
      fun pre S post hsrcs => .inl ((hcallee S (by simp [hsrcs])).1 S.entry)
  have hfinds : LM.Finds I env r.info.name := .inl (Module.mentions_of_defines (r.defines LM hLM))
  exact ⟨hLM'.linkAll hall, hfinds.linkAll hLM' hall fun S hS => (hcallee S hS).1 S.entry⟩

theorem moduleSource_means (P : Process β δ) (fn : ModulePtr) {m : String} :
    (P.moduleSource fn).mod.Means I env m ↔ (P.modules fn).mod.Means I env m := by
  have hdefs : (P.moduleSource fn).mod.defs = (P.modules fn).mod.defs := rfl
  simp only [Module.Means, Module.meaning_of_defs hdefs]

/-- The sources for the arguments are sound. -/
theorem SoundArguments.soundAll (hP : P.Sound I env) {args : List HighLevelArg}
    (h : SoundArguments I env P M args C) : M.SoundAll I env (contextSources P args C) := by
  refine Module.soundAll_of contextSources_defines (fun src hsrc m hm => ?_)
    fun pre src post hsrcs => ?_
  · rcases mem_contextSources hsrc with ⟨p, hp⟩ | ⟨fn, rfl⟩
    · exact hP.source hp m
    · exact (moduleSource_means P fn).2 (h.means fn hsrc m hm)
  · have hsrc : src ∈ contextSources P args C := by simp [hsrcs]
    rcases mem_contextSources hsrc with ⟨p, hp⟩ | ⟨fn, rfl⟩
    · exact .inl (hP.source hp _)
    · exact (h.entry pre fn post hsrcs).imp_left (moduleSource_means P fn).2

end Loaded

/-! ## The wrapper -/

section Wrap

variable {T : SymbolTable δ} {M : LModule δ} {name : String} {callee s : Sym String}
  {W : Wrapper} {x : LShape δ}

theorem mentions_currentName :
    (privatiseCallee M callee).1.mentions (currentName T M name callee) = false := by
  cases callee with
  | ext n => exact Module.mentions_privatise
  | loc k =>
    show M.mentions (currentName T M name (.loc k)) = false
    rw [currentName]
    split
    · rename_i h
      exact h.2
    · exact mentions_makeUniqueName T M name

theorem definition?_wrap :
    (wrap T M name callee W).definition? (.ext (currentName T M name callee)) = some W.toDef := by
  simp [wrap, markAsEntry, Module.define, Module.definition?]

/-- Another symbol than the name of the wrapper has the definition it had. -/
theorem definition?_wrap_of_ne (hs : s ≠ .ext (currentName T M name callee)) :
    (wrap T M name callee W).definition? s = (privatiseCallee M callee).1.definition? s := by
  simp [wrap, markAsEntry, Module.define, Module.definition?, Ne.symm hs]

theorem meaning_wrap (hs : s ≠ .ext (currentName T M name callee)) (n : ℕ) :
    (wrap T M name callee W).meaning I env n s
      = (privatiseCallee M callee).1.meaning I env n s := by
  have hdefs : (wrap T M name callee W).defs
      = ((privatiseCallee M callee).1.define (currentName T M name callee) W.toDef).defs := rfl
  rw [Module.meaning_of_defs hdefs, Module.meaning_define mentions_currentName n s hs]

theorem defines_of_shape? {m : String} (hx : M.shape? (.ext m) = some x) :
    M.defines m = true := by
  rw [Module.defines, hx]
  rfl

theorem shape?_wrap_callee (hx : M.shape? callee = some x) :
    (wrap T M name callee W).shape? (privatiseCallee M callee).2 = some x := by
  have hne : (privatiseCallee M callee).2 ≠ .ext (currentName T M name callee) := by
    cases callee <;> nofun
  rw [Module.shape?_eq_map, definition?_wrap_of_ne hne, ← Module.shape?_eq_map]
  cases callee with
  | ext m => exact Module.shape?_privatise_next.trans hx
  | loc k => exact hx

/-- The function means in its new place what it did. -/
theorem meaning_wrap_callee (hx : M.shape? callee = some x) (n : ℕ) :
    (wrap T M name callee W).meaning I env n (privatiseCallee M callee).2
      = M.meaning I env n callee := by
  rw [meaning_wrap (by cases callee <;> nofun)]
  cases callee with
  | ext m =>
    rw [← Module.meaning_privatise (defines_of_shape? hx) n (.ext m) trivial, Sym.privatise,
      if_pos rfl]
    rfl
  | loc k => rfl

theorem wrap_holds {S : LSource δ} (hx : M.shape? callee = some x)
    (h : M.HoldsEntry I env s S) : (wrap T M name callee W).HoldsEntry I env s S := by
  obtain ⟨k, hk, rfl, hmeans⟩ := h
  have hnext : M.next ≤ (wrap T M name callee W).next := by
    refine Nat.le_trans ?_ (Nat.le_max_left _ _)
    cases callee with
    | ext m => exact Nat.le_succ _
    | loc j => exact Nat.le_refl _
  refine ⟨k, hk.trans_le hnext, rfl, fun n => ?_⟩
  rw [meaning_wrap (by nofun), ← hmeans n]
  cases callee with
  | ext m => exact Module.meaning_privatise (defines_of_shape? hx) n (.loc k) hk
  | loc j => rfl

theorem wrap_means (hM : M.Sound I env) (hx : M.shape? callee = some x) {m : String}
    (hm : m ≠ currentName T M name callee) : (wrap T M name callee W).Means I env m := by
  intro n
  rw [meaning_wrap fun h => hm (Linker.Sym.ext.inj h), ← hM m n]
  cases callee with
  | ext m' =>
    have hpriv : (M.privatise m').meaning I env (n + 1) ((Linker.Sym.ext m).privatise m' M.next)
        = M.meaning I env (n + 1) (.ext m) :=
      Module.meaning_privatise (defines_of_shape? hx) (n + 1) (.ext m) trivial
    have hne : m ≠ m' := hm
    rwa [Sym.privatise, if_neg hne] at hpriv
  | loc j => rfl

end Wrap

/-- The function that is called means what its name does, with the arguments linked in. -/
theorem meaning_callee {M : LModule δ} {name : String} {callee : Sym String}
    {srcs : List (LSource δ)} (hM : M.Sound I env) (hname : M.Finds I env name)
    (hsrcs : M.SoundAll I env srcs) (h : getFunction M name = some callee) (n : ℕ) :
    (M.linkAll srcs).meaning I env (n + 1) callee = env name (n + 1) := by
  have hfound := hname.means hM (getNamedValue_of_getFunction h)
  rcases getFunction_cases h with ⟨-, rfl⟩ | ⟨-, k, rfl, -⟩
  · exact hM.linkAll hsrcs name n
  · exact (Module.meaning_linkAll_loc hM hsrcs hfound.1).trans (hfound.2 n)

/-- Whatever is linked together for a compilation, its wrapper calls what the program means by the
name of the function, and passes what the captured functions mean. -/
theorem linked_meansCall {globals : GlobalMapping} {M : LModule δ} (hP : P.Sound I env)
    (hstub : ∀ name M, loaded P addr = .ok (name, M) → ¬ HasStub M name)
    (hargs : ComposesSoundly I env P addr C) (h : linked P addr C = .ok (globals, M)) :
    ∃ r F entry W, P.registration? addr = some r ∧ getEntryFunctionName M = .ok entry
      ∧ MeansCall I env P r.info.name F C M entry W := by
  simp only [linked, Process.getNameAndGlobalMapping_eq, Except.bind_eq_ok] at h
  obtain ⟨⟨name, globals'⟩, hname, ⟨name', N⟩, hload, ⟨M', W⟩, hrun, heq⟩ := h
  cases heq
  obtain ⟨r, LM, s, hr, hLM, rfl, hs, hN⟩ := loaded_ok hload
  rw [emitCodes_of_not_hasStub (hstub _ _ hload)] at hrun
  obtain ⟨callee, F, body, W₀, hcallee, hF, -, -, hsize, hW, rfl, rfl⟩ := runOnModule_ok hrun
  obtain ⟨hM, hfinds⟩ := loaded_sound hP hload
  have hsound := (hargs _ _ _ _ _ hload hcallee hF).soundAll hP
  have hM₁ := hM.linkAll hsound
  obtain ⟨-, hcalls, -, hkeep, -, hvals⟩ := createWrapperFun_ok hsize hW
  have hshape := shape?_callee hF hkeep
  rw [hF] at hshape
  refine ⟨r, F, _, _, hr, ?_, definition?_wrap, ?_, ?_, ?_, fun m hm => wrap_means hM₁ hshape hm⟩
  · refine getEntryFunctionName_wrap (Module.metadata_linkAll (metadata_loaded hload) ?_)
    exact contextSources_metadata
  · exact ⟨body, shape?_wrap_callee hshape⟩
  · intro n
    rw [meaning_wrap_callee hshape]
    exact meaning_callee hM hfinds hsound hcallee n
  · refine ⟨(getInlineArgsFrom_values hsize hvals).2.1, fun i ty arg v hty harg hv => ?_⟩
    have hholds := getInlineArgsFrom_holds_values hM hsound hvals i ty arg v hty
      harg hv
    rw [LinkState.mod_linkSources] at hholds
    exact hholds.imp fun _ _ => wrap_holds hshape

section Samples

attribute [local instance] BitcodeFormat.self

open Sample

/-- How many functions a call of a function runs. -/
def countCalls : Interpretation Op GlobalInfo ℕ where
  apply _ body := 1 + (body.map fun i => i.2.sum).sum
  bottom := 0

def callsOf (names : List String) : List (Inst String (Option Unit) Op) :=
  names.map fun n => inst (.call []) [(n, ())]

/-- `g` does nothing, and `f` calls itself and `g`. -/
def recursiveF : LModule Unit := define .empty 0 "f" [.ptr (.func .void [])] (callsOf ["f", "g"])

def leafG : LModule Unit := define .empty 0 "g" [] (callsOf [])

def unitFG : LModule Unit := define leafG 0 "f" [.ptr (.func .void [])] (callsOf ["f", "g"])

def registeredFG : Process (LModule Unit) Unit :=
  process [register 1 "f" [] recursiveF one_ne_null isCString_f rfl rfl,
    register 2 "g" [] leafG two_ne_null isCString_g rfl rfl]

/-- What the unit means by a name. -/
def meaningFG (m : String) (n : ℕ) : ℕ := unitFG.meaning countCalls (fun _ _ => 0) n (.ext m)

/-- A module with one of the functions of the unit means what that does. -/
theorem sound_of_single {M : LModule Unit} {name : String} {params : List Ty}
    {calls : List String} (hM : M = define .empty 0 name params (callsOf calls))
    (hunit : unitFG.definition? (.ext name)
      = some ⟨.function (function 0 name params), callsOf calls⟩) :
    M.Sound countCalls meaningFG := by
  subst hM
  have hdef : ∀ s d, (define .empty 0 name params (callsOf calls)).definition? s = some d →
      s = .ext name ∧ d = ⟨.function (function 0 name params), callsOf calls⟩ := by
    intro s d hd
    have heq := List.mem_singleton.1 (Module.mem_defs_of_definition? hd)
    exact ⟨(Prod.mk.inj heq).1, (Prod.mk.inj heq).2⟩
  have hsim : (define .empty 0 name params (callsOf calls)).Simulates countCalls meaningFG
      (fun _ _ => 0) unitFG fun s t => s = t ∧ ∃ m, s = .ext m := by
    constructor
    · rintro s _ d ⟨rfl, -⟩ hd
      obtain ⟨rfl, rfl⟩ := hdef s d hd
      refine ⟨_, hunit, rfl, List.forall₂_same.2 fun i hi => ⟨rfl, List.forall₂_same.2 ?_⟩⟩
      intro r hr
      obtain ⟨n, -, rfl⟩ := List.mem_map.1 hi
      obtain rfl := List.mem_singleton.1 hr
      exact ⟨rfl, n, rfl⟩
    · rintro _ _ ⟨rfl, m, rfl⟩ - n
      rfl
  exact fun m n => hsim.meaning (n + 1) _ _ ⟨rfl, m, rfl⟩

/-- The recursive function, of which a copy is linked in, with the other one as its argument. -/
theorem linked_meansCall_recursive : ∃ M F W, linked registeredFG 1 { argumentMapping := [.ptr 2] }
    = .ok ([], M) ∧ MeansCall countCalls meaningFG registeredFG "f" F
      { argumentMapping := [.ptr 2] } M "f" W := by
  have h : linked registeredFG 1 { argumentMapping := [.ptr 2] } = .ok ([], _) := rfl
  have hP : registeredFG.Sound countCalls meaningFG := by
    refine ⟨?_, ?_⟩
    · rintro r (_ | ⟨_, _ | ⟨_, ⟨⟩⟩⟩) LM ⟨⟩
      · exact sound_of_single rfl rfl
      · exact sound_of_single rfl rfl
    · rintro r (_ | ⟨_, _ | ⟨_, ⟨⟩⟩⟩) r' (_ | ⟨_, _ | ⟨_, ⟨⟩⟩⟩) hfptr
      · rfl
      · cases hfptr
      · cases hfptr
      · rfl
  have hstub : ∀ name M, loaded registeredFG 1 = .ok (name, M) → ¬ HasStub M name := by
    intro _ M hload
    have hload' : loaded registeredFG 1 = .ok ("f", _) := rfl
    obtain ⟨rfl, rfl⟩ := Prod.mk.inj (Except.ok.inj (hload.symm.trans hload'))
    exact not_hasStub_of_not_changed (by decide)
  have hargs : ComposesSoundly countCalls meaningFG registeredFG 1
      { argumentMapping := [.ptr 2] } := by
    intro _ _ _ F _ _ _ _
    -- the module of a compiled function is not linked in
    have hno : ∀ fn, registeredFG.moduleSource fn ∉ contextSources registeredFG
        (F.params.mapIdx paramArg) { argumentMapping := [.ptr 2] } := by
      intro fn hmem
      obtain ⟨x, hx, hsrc⟩ := List.mem_flatMap.1 hmem
      rw [List.mem_singleton.1 (List.of_mem_zip hx).2] at hsrc
      have hne : "noop" ≠ "g" := by decide
      exact hne (congrArg Source.entry (List.mem_singleton.1 hsrc))
    refine ⟨fun fn hfn => absurd hfn (hno fn), fun pre fn post hsrcs => absurd ?_ (hno fn)⟩
    rw [hsrcs]
    exact List.mem_append_right _ List.mem_cons_self
  obtain ⟨r, F, entry, W, ⟨⟩, hentry, hmeans⟩ := linked_meansCall hP hstub hargs h
  cases hentry
  exact ⟨_, F, W, h, hmeans⟩

end Samples

end EasyJit
