import EasyJit.Lib.Binding
import EasyJit.Lib.Except
import EasyJit.Function
import EasyJit.Proofs.BitcodeTracker

/-!
# Linking arguments in

Each way the runtime links a module in is a `linkSource`: the module's own definition of the entry
is what the name finds afterwards, and it is made private under a number of its own. A constant
made of such numbers stands for the same definitions however much is linked in later (`Stable`).
-/

namespace EasyJit

open LLVM Linker

variable {β δ : Type} [BitcodeFormat β δ] {P : Process β δ}

namespace LinkState

def linkSource (S : LinkState δ) (src : LSource δ) : LinkState δ :=
  ⟨S.mod.linkSource src, S.linked ++ [src.mod]⟩

def linkSources (S : LinkState δ) (srcs : List (LSource δ)) : LinkState δ :=
  srcs.foldl linkSource S

variable {S : LinkState δ} {srcs : List (LSource δ)}

@[simp] theorem linkSources_nil : S.linkSources [] = S := rfl

theorem linkSources_append (srcs' : List (LSource δ)) :
    S.linkSources (srcs ++ srcs') = (S.linkSources srcs).linkSources srcs' := by
  simp [linkSources]

@[simp] theorem mod_linkSources : (S.linkSources srcs).mod = S.mod.linkAll srcs := by
  induction srcs generalizing S with
  | nil => rfl
  | cons src srcs ih => exact ih

@[simp] theorem linked_linkSources :
    (S.linkSources srcs).linked = S.linked ++ srcs.map (·.mod) := by
  induction srcs generalizing S with
  | nil => simp
  | cons src srcs ih =>
    rw [show S.linkSources (src :: srcs) = (S.linkSource src).linkSources srcs from rfl, ih]
    simp [linkSource]

end LinkState

/-! ## Constants and what they stand for -/

section Constants

variable {σ τ : Type} {f : σ → τ}

namespace Constant

@[simp] theorem type_map : ∀ c : Constant σ, (c.map f).type = c.type
  | .int _ _ | .fp _ _ | .null _ | .intToPtr _ _ | .bytes _ _ | .global _ _ | .struct _ _
  | .array _ _ | .address _ _ | .pointerCast _ _ => rfl
  | .splat n c => by simp only [map, type, type_map c]

mutual

theorem map_congr {g : σ → τ} : ∀ {c : Constant σ}, (∀ s ∈ c.symbols, f s = g s) →
    c.map f = c.map g
  | .int _ _, _ | .fp _ _, _ | .null _, _ | .intToPtr _ _, _ | .bytes _ _, _ => rfl
  | .global s _, h => by simp only [map, h s (by simp [symbols])]
  | .splat _ c, h => by simp only [map, map_congr (c := c) h]
  | .pointerCast c _, h => by simp only [map, map_congr (c := c) h]
  | .address _ c, h => by simp only [map, map_congr (c := c) h]
  | .struct _ cs, h => by simp only [map, mapList_congr h]
  | .array _ cs, h => by simp only [map, mapList_congr h]

theorem mapList_congr {g : σ → τ} : ∀ {cs : List (Constant σ)},
    (∀ s ∈ symbolsList cs, f s = g s) → mapList f cs = mapList g cs
  | [], _ => rfl
  | c :: cs, h => by
    have hc : c.map f = c.map g := map_congr fun s hs => h s (List.mem_append_left _ hs)
    have hcs : mapList f cs = mapList g cs :=
      mapList_congr fun s hs => h s (List.mem_append_right _ hs)
    simp only [mapList, hc, hcs]

end

mutual

theorem map_id : ∀ c : Constant σ, c.map id = c
  | .int _ _ | .fp _ _ | .null _ | .intToPtr _ _ | .bytes _ _ | .global _ _ => rfl
  | .splat n c => by rw [map, map_id c]
  | .pointerCast c ty => by rw [map, map_id c]
  | .struct ty cs => by rw [map, mapList_id cs]
  | .array ty cs => by rw [map, mapList_id cs]
  | .address ty c => by rw [map, map_id c]

theorem mapList_id : ∀ cs : List (Constant σ), mapList id cs = cs
  | [] => rfl
  | c :: cs => by rw [mapList, map_id c, mapList_id cs]

end

section Comp

variable {υ : Type} {g : τ → υ}

mutual

theorem map_map : ∀ c : Constant σ, (c.map f).map g = c.map (g ∘ f)
  | .int _ _ | .fp _ _ | .null _ | .intToPtr _ _ | .bytes _ _ | .global _ _ => rfl
  | .splat n c => by rw [map, map, map, map_map c]
  | .pointerCast c ty => by rw [map, map, map, map_map c]
  | .struct ty cs => by rw [map, map, map, mapList_mapList cs]
  | .array ty cs => by rw [map, map, map, mapList_mapList cs]
  | .address ty c => by rw [map, map, map, map_map c]

theorem mapList_mapList : ∀ cs : List (Constant σ),
    mapList g (mapList f cs) = mapList (g ∘ f) cs
  | [] => rfl
  | c :: cs => by rw [mapList, mapList, mapList, map_map c, mapList_mapList cs]

end

end Comp

/-- A constant is found again from one over positions, or over other names of its symbols. -/
theorem map_map_cancel {g : τ → σ} {c : Constant σ} (h : ∀ s ∈ c.symbols, g (f s) = s) :
    (c.map f).map g = c := by
  rw [map_map, map_congr (f := g ∘ f) (g := id) h, map_id]

end Constant

/-- What a constant stands for in a module. -/
def denote (M : LModule δ) (c : LConstant) : Constant (Target δ) := c.map M.shape?

/-- What a constant stands for does not change when more is linked in. -/
def Stable (M : LModule δ) (c : LConstant) : Prop :=
  ∀ srcs : List (LSource δ), denote (M.linkAll srcs) c = denote M c

variable {M : LModule δ} {c : LConstant} {srcs : List (LSource δ)}

theorem Stable.linkAll (h : Stable M c) : Stable (M.linkAll srcs) c := by
  intro srcs'
  rw [← Module.linkAll_append, h, h]

theorem stable_of_local (h : ∀ s ∈ c.symbols, ∃ k < M.next, s = .loc k) : Stable M c := by
  intro srcs
  refine Constant.map_congr fun s hs => ?_
  obtain ⟨k, hk, rfl⟩ := h s hs
  exact Module.shape?_linkAll_loc hk

end Constants

/-! ## Sources -/

section Sources

variable {S S' : LinkState δ} {src : LSource δ} {p : Ptr} {ty : Ty}

theorem source?_ok (h : P.source? p = .ok (some src)) :
    src.mod.defines src.entry = true ∧ src.mod.metadata = none := by
  unfold Process.source? at h
  split at h
  · cases h
  · rename_i r hr
    split at h
    · cases h
    · rename_i LM hLM
      cases h
      exact ⟨r.defines LM hLM, r.metadata LM hLM⟩

theorem mem_pointerSources : src ∈ P.pointerSources p ↔ P.source? p = .ok (some src) := by
  unfold Process.pointerSources
  split
  · rename_i src' h
    rw [List.mem_singleton, h, Except.ok.injEq, Option.some.injEq, eq_comm]
  · rename_i h
    exact ⟨fun hsrc => absurd hsrc List.not_mem_nil, fun hsrc => absurd hsrc (h src)⟩

theorem getNamedValue_link (h : src.mod.defines src.entry = true) :
    (S.mod.link src.mod).getNamedValue src.entry = some (.ext src.entry) := by
  rw [Module.getNamedValue, Module.mentions_of_defines (Module.defines_link h)]
  rfl

theorem shape?_link_entry (h : src.mod.defines src.entry = true) :
    (S.mod.link src.mod).shape? (.ext src.entry) = src.mod.shape? (.ext src.entry) := by
  obtain ⟨x, hx⟩ := Option.isSome_iff_exists.1 h
  rw [Module.shape?_link_ext, hx, Option.some_or]

theorem shape?_linkSource_entry (h : src.mod.defines src.entry = true) :
    (S.mod.linkSource src).shape? (.loc (S.mod.next + src.mod.next))
      = src.mod.shape? (.ext src.entry) := by
  obtain ⟨x, hx⟩ := Option.isSome_iff_exists.1 h
  rw [Module.shape?_linkSource_entry, hx, Option.some_or]

/-- The value that a source was linked in for. -/
def linkedConstant (S : LinkState δ) (src : LSource δ) (ptrTy : Ty) : Except Fault LConstant :=
  match src.mod.shape? (.ext src.entry) with
  | some ⟨.variable ty, _⟩ =>
    let c := .global (.loc (S.mod.next + src.mod.next)) (.ptr ty)
    .ok (if .ptr ty ≠ ptrTy then .pointerCast c ptrTy else c)
  | some ⟨.function F, _⟩ =>
    .ok (.global (.loc (S.mod.next + src.mod.next)) (.ptr F.functionType))
  | none => .error .assertion

/-- The module that is registered for a pointer is linked in, for the name it has there. -/
theorem linkPointerIfPossible_of_lookup {T : BitcodeTracker β} {info : FunctionRegistration β}
    {LM : LModule δ} (hinfo : T.functions.lookup p = some info)
    (hLM : BitcodeFormat.parse info.bitcode = some LM) (hd : LM.defines info.name = true) :
    linkPointerIfPossible T S p ty = (linkedConstant S ⟨LM, info.name⟩ ty).map fun c =>
      (S.linkSource ⟨LM, info.name⟩, some c) := by
  let src : LSource δ := ⟨LM, info.name⟩
  have hnv := getNamedValue_link (S := S) (show src.mod.defines src.entry = true from hd)
  have hsh := shape?_link_entry (S := S) (show src.mod.defines src.entry = true from hd)
  simp only [src] at hnv hsh
  simp only [linkPointerIfPossible, BitcodeTracker.hasGlobalMapping,
    BitcodeTracker.getNameAndGlobalMapping, BitcodeTracker.getModule, hinfo, Option.isSome_some,
    if_true, hLM, bind, Except.bind, LinkState.linkModules, hnv, hsh, setPrivate, linkedConstant]
  cases hx : LM.shape? (.ext info.name) with
  | none => rfl
  | some x =>
    obtain ⟨info', body⟩ := x
    cases info' <;> rfl

theorem linkPointerIfPossible_eq : linkPointerIfPossible P.tracker S p ty
    = match P.source? p with
      | .error e => .error e
      | .ok none => .ok (S, none)
      | .ok (some src) =>
        (linkedConstant S src ty).map fun c => (S.linkSource src, some c) := by
  have hlookup : P.tracker.functions.lookup p = (P.registration? p).map (·.info) :=
    BitcodeTracker.lookup_functions P.registrations p
  cases hr : P.registration? p with
  | none =>
    rw [hr, Option.map_none] at hlookup
    simp [linkPointerIfPossible, BitcodeTracker.hasGlobalMapping, hlookup, Process.source?, hr]
  | some r =>
    rw [hr, Option.map_some] at hlookup
    cases hM : BitcodeFormat.parse (δ := δ) r.info.bitcode with
    | none =>
      simp [linkPointerIfPossible, BitcodeTracker.hasGlobalMapping,
        BitcodeTracker.getNameAndGlobalMapping, BitcodeTracker.getModule, hlookup, Process.source?,
        hr, hM, bind, Except.bind]
    | some LM =>
      have hsrc : P.source? p = .ok (some ⟨LM, r.info.name⟩) := by simp [Process.source?, hr, hM]
      rw [linkPointerIfPossible_of_lookup hlookup hM (source?_ok hsrc).1, hsrc]

theorem linkedConstant_stable {c : LConstant} (h : linkedConstant S src ty = .ok c) :
    Stable (S.linkSource src).mod c := by
  refine stable_of_local ?_
  have hk : S.mod.next + src.mod.next < (S.mod.linkSource src).next := by
    rw [Module.next_linkSource]
    omega
  unfold linkedConstant at h
  split at h
  · cases h
    intro s hs
    split at hs <;> simp only [Constant.symbols, List.mem_singleton] at hs <;>
      exact ⟨_, hk, hs⟩
  · cases h
    intro s hs
    simp only [Constant.symbols, List.mem_singleton] at hs
    exact ⟨_, hk, hs⟩
  · cases h

theorem linkedConstant_denote (hd : src.mod.defines src.entry = true) :
    (linkedConstant S src ty).map (denote (S.linkSource src).mod) = entryTarget src ty := by
  have hsh := shape?_linkSource_entry (S := S) hd
  unfold linkedConstant entryTarget
  cases hx : src.mod.shape? (.ext src.entry) with
  | none => rfl
  | some x =>
    obtain ⟨info, body⟩ := x
    rw [hx] at hsh
    cases info with
    | function F => simp [Except.map, denote, Constant.map, LinkState.linkSource, hsh]
    | «variable» t =>
      by_cases ht : Ty.ptr t = ty <;>
        simp [Except.map, denote, Constant.map, LinkState.linkSource, hsh, ht]

/-- What `LinkPointerIfPossible` gives is stable, and stands for the registered function. -/
theorem linkPointerIfPossible_ok {c : Option LConstant}
    (h : linkPointerIfPossible P.tracker S p ty = .ok (S', c)) :
    S' = S.linkSources (P.pointerSources p) ∧ (∀ c' ∈ c, Stable S'.mod c')
      ∧ linkTarget P p ty = .ok (c.map (denote S'.mod)) := by
  rw [linkPointerIfPossible_eq] at h
  cases hsrc : P.source? p with
  | error e => simp [hsrc] at h
  | ok o =>
    cases o with
    | none =>
      simp only [hsrc, Except.ok.injEq, Prod.mk.injEq] at h
      obtain ⟨rfl, rfl⟩ := h
      refine ⟨by simp [Process.pointerSources, hsrc], by simp, ?_⟩
      simp [linkTarget, hsrc, bind, Except.bind]
    | some src =>
      simp only [hsrc, Except.map_eq_ok, Prod.mk.injEq] at h
      obtain ⟨c', hc, rfl, rfl⟩ := h
      have hd : (linkedConstant S src ty).map (denote (S.linkSource src).mod)
          = entryTarget src ty := linkedConstant_denote (source?_ok hsrc).1
      rw [hc] at hd
      refine ⟨by simp [Process.pointerSources, hsrc, LinkState.linkSources], ?_, ?_⟩
      · rintro _ ⟨⟩
        exact linkedConstant_stable hc
      · simp [linkTarget, hsrc, bind, Except.bind, ← hd, Except.map]

theorem linkPointerIfPossible_of_linkTarget {t : Option (Constant (Target δ))}
    (h : linkTarget P p ty = .ok t) :
    ∃ S' c, linkPointerIfPossible P.tracker S p ty = .ok (S', c) := by
  rw [linkPointerIfPossible_eq]
  simp only [linkTarget, Except.bind_eq_ok] at h
  obtain ⟨o, hsrc, h⟩ := h
  cases o with
  | none => exact ⟨S, none, by simp only [hsrc]⟩
  | some src =>
    obtain ⟨t', ht', -⟩ := Except.bind_eq_ok.1 h
    rw [← linkedConstant_denote (S := S) (source?_ok hsrc).1, Except.map_eq_ok] at ht'
    obtain ⟨c, hc, -⟩ := ht'
    exact ⟨S.linkSource src, some c, by simp only [hsrc, hc, Except.map]⟩

theorem moduleSource_shape? (P : Process β δ) (fn : ModulePtr) :
    ∃ body, (P.moduleSource fn).mod.shape? (.ext (P.moduleSource fn).entry)
      = some ⟨.function (P.modules fn).function, body⟩ := by
  obtain ⟨⟨info, body⟩, hx, hinfo⟩ := Option.map_eq_some_iff.1 (P.modules fn).entry_function
  subst hinfo
  exact ⟨body, hx⟩

theorem moduleSource_defines (P : Process β δ) (fn : ModulePtr) :
    (P.moduleSource fn).mod.defines (P.moduleSource fn).entry = true := by
  obtain ⟨body, hx⟩ := moduleSource_shape? P fn
  rw [Module.defines, hx]
  rfl

/-- The entry of a compiled function's module is linked in, and found. -/
theorem linkModuleArgument_eq (fn : ModulePtr) :
    linkModuleArgument S (P.modules fn).mod
      = (linkedConstant S (P.moduleSource fn) (.ptr (P.modules fn).function.functionType)).map
          fun c => (S.linkSource (P.moduleSource fn), c) := by
  obtain ⟨body, hsrc⟩ := moduleSource_shape? P fn
  have hd := moduleSource_defines P fn
  have hsh := shape?_link_entry (S := S) hd
  rw [hsrc] at hsh
  have hf : getFunction (S.mod.link (P.moduleSource fn).mod) (P.moduleSource fn).entry
      = some (.ext (P.moduleSource fn).entry) := by
    simp only [getFunction, getNamedValue_link (S := S) hd, hsh]
  have hclone : cloneModule (P.modules fn).mod = some (P.modules fn).mod :=
    BitcodeFormat.parse_write _
  have hlink : S.linkModules (unmarkEntry (P.modules fn).mod)
      = ⟨S.mod.link (P.moduleSource fn).mod, S.linked ++ [(P.moduleSource fn).mod]⟩ := rfl
  have hentry : (P.modules fn).entry = (P.moduleSource fn).entry := rfl
  simp only [linkModuleArgument, (P.modules fn).entry_eq, hclone, hlink, hentry, hf, hsh, bind,
    Except.bind, linkedConstant, hsrc, Except.map, setPrivate]
  rfl

theorem linkModuleArgument_ok {fn : ModulePtr} {c : LConstant}
    (h : linkModuleArgument S (P.modules fn).mod = .ok (S', c)) :
    S' = S.linkSource (P.moduleSource fn) ∧ Stable S'.mod c
      ∧ entryTarget (P.moduleSource fn) (.ptr (P.modules fn).function.functionType)
        = .ok (denote S'.mod c) := by
  rw [linkModuleArgument_eq, Except.map_eq_ok] at h
  obtain ⟨c, hc, heq⟩ := h
  cases heq
  refine ⟨rfl, linkedConstant_stable hc, ?_⟩
  rw [← linkedConstant_denote (S := S) (moduleSource_defines P fn), hc]
  rfl

/-- What is linked in for an argument is the module of a registered function, or of a compiled
one. -/
theorem mem_contextSources {args : List HighLevelArg} {C : Context}
    (h : src ∈ contextSources P args C) :
    (∃ p, P.source? p = .ok (some src)) ∨ ∃ fn, src = P.moduleSource fn := by
  obtain ⟨⟨argInF, arg⟩, -, hsrc⟩ := List.mem_flatMap.1 h
  cases arg with
  | forward | int | float => simp [argSources] at hsrc
  | ptr p => exact .inl ⟨p, mem_pointerSources.1 hsrc⟩
  | struct data =>
    simp only [argSources] at hsrc
    split at hsrc
    · split at hsrc
      · obtain ⟨p, -, hsrc⟩ := List.mem_flatMap.1 hsrc
        exact .inl ⟨p.1, mem_pointerSources.1 hsrc⟩
      · simp at hsrc
    · simp at hsrc
  | module fn => exact .inr ⟨fn, List.mem_singleton.1 hsrc⟩

/-- Every module that is linked in for an argument defines the name it is linked in for. -/
theorem contextSources_defines {args : List HighLevelArg} {C : Context} :
    ∀ src ∈ contextSources P args C, src.mod.defines src.entry = true := by
  intro src hsrc
  rcases mem_contextSources hsrc with ⟨p, hp⟩ | ⟨fn, rfl⟩
  · exact (source?_ok hp).1
  · exact moduleSource_defines P fn

theorem contextSources_metadata {args : List HighLevelArg} {C : Context} :
    ∀ src ∈ contextSources P args C, src.mod.metadata = none := by
  intro src hsrc
  rcases mem_contextSources hsrc with ⟨p, hp⟩ | ⟨fn, rfl⟩
  · exact (source?_ok hp).2
  · rfl

/-! ## Callees -/

theorem linkCallee_ok {M M' : LModule δ} {name : String}
    (h : linkCallee P.tracker M name = .ok M') : M' = M.linkAll (P.calleeSources name) := by
  unfold linkCallee at h
  rw [Process.getAddress_eq] at h
  cases hr : P.registrationOf? name with
  | none =>
    simp only [hr, Option.map_none, Option.getD_none, ne_eq, not_true_eq_false, if_false,
      Except.ok.injEq] at h
    simp [Process.calleeSources, hr, h]
  | some r =>
    simp only [hr, Option.map_some, Option.getD_some, ne_eq, r.fptr_ne, not_false_eq_true, if_true,
      Except.bind_eq_ok] at h
    obtain ⟨LM, hLM, h⟩ := h
    have hsrc : ∃ n, P.source? r.fptr = .ok (some ⟨LM, n⟩) := by
      rw [Process.getModule_eq] at hLM
      cases hr' : P.registration? r.fptr with
      | none => simp [hr'] at hLM
      | some r' =>
        cases hp : BitcodeFormat.parse (δ := δ) r'.info.bitcode with
        | none => simp [hr', hp] at hLM
        | some LM' =>
          simp only [hr', hp, Except.ok.injEq] at hLM
          exact ⟨r'.info.name, by simp [Process.source?, hr', hp, hLM]⟩
    obtain ⟨n, hsrc⟩ := hsrc
    have hM' : M' = (M.link LM).privatise name := by
      split at h <;> cases h
      rfl
    simp [hM', Process.calleeSources, hr, Process.pointerSources, hsrc, Module.linkSource]

/-- Every function a function calls is linked in, if one was registered under its name. -/
theorem resolveModule_ok {M M' : LModule δ} {name : String}
    (h : resolveModule P.tracker M name = .ok M') : ∃ F, getFunction M name = some F
      ∧ M' = M.linkAll ((calledNames M F).flatMap P.calleeSources) := by
  unfold resolveModule at h
  cases hF : getFunction M name with
  | none => simp [hF] at h
  | some F =>
    simp only [hF] at h
    refine ⟨F, rfl, ?_⟩
    generalize calledNames M F = names at h
    clear hF
    induction names generalizing M with
    | nil =>
      cases h
      rfl
    | cons n names ih =>
      rw [List.foldlM_cons, Except.bind_eq_ok] at h
      obtain ⟨M₁, h₁, h⟩ := h
      rw [ih h, linkCallee_ok h₁, List.flatMap_cons, Module.linkAll_append]

theorem calleeSources_metadata {name : String} :
    ∀ src ∈ P.calleeSources name, src.mod.metadata = none := by
  intro src hsrc
  unfold Process.calleeSources at hsrc
  split at hsrc
  · simp at hsrc
  · obtain ⟨src', h', rfl⟩ := List.mem_map.1 hsrc
    exact (source?_ok (mem_pointerSources.1 h')).2

end Sources

end EasyJit
