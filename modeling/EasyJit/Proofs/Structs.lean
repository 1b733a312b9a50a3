import EasyJit.Proofs.Linking

/-!
# Structs

The walk that builds the initialiser of a struct looks at a symbol nowhere: it does the same with
the functions that were linked in as with what they stand for (`storeStructFieldAsGlobal_map`).
The walk before it links in the functions that the struct points to, in order
(`storeStructFieldPrepare_eq`).
-/

namespace EasyJit

open LLVM Linker

section Naturality

variable {σ τ : Type} {f : σ → τ} {DL : DataLayout}

/-- The same computation, with every symbol replaced in its result. -/
abbrev mapFst (f : σ → τ) (r : Option (Constant σ) × ℕ) : Option (Constant τ) × ℕ :=
  (r.1.map (Constant.map f), r.2)

theorem intFromRaw_map (n : ℕ) (raw : List UInt8) :
    (intFromRaw n raw).map (mapFst f) = intFromRaw n raw := by
  unfold intFromRaw
  cases readRaw n raw <;> rfl

theorem getConstantFromRaw_map (ty : Ty) (raw : List UInt8) :
    (getConstantFromRaw DL ty raw).map (mapFst f) = getConstantFromRaw DL ty raw := by
  unfold getConstantFromRaw
  split
  case h_9 =>
    cases readRaw (DL.getTypeStoreSize ty) raw with
    | error e => rfl
    | ok bs =>
      simp only [bind, Except.bind]
      split <;> rfl
  all_goals first
    | rfl
    | exact intFromRaw_map _ _
    | (cases readRaw _ raw <;> rfl)

theorem structValues_map (data : List UInt8) : ∀ (tys : List Ty) (offset : ℕ),
    (structValues DL data tys offset).map (List.map (Constant.map f))
      = structValues DL data tys offset
  | [], _ => rfl
  | ty :: tys, offset => by
    simp only [structValues]
    rw [← getConstantFromRaw_map (f := f)]
    cases getConstantFromRaw (σ := σ) DL ty (data.drop offset) with
    | error e => rfl
    | ok r =>
      obtain ⟨c, n⟩ := r
      cases c with
      | none => rfl
      | some c =>
        have ih := structValues_map data tys (offset + n)
        simp only [bind, Except.bind, Except.map, mapFst, Option.map_some] at ih ⊢
        rw [← ih]
        cases structValues (σ := σ) DL data tys (offset + n) <;> rfl

theorem Constant.mapList_eq (f : σ → τ) (cs : List (Constant σ)) :
    Constant.mapList f cs = cs.map (Constant.map f) := by
  induction cs with
  | nil => rfl
  | cons c cs ih => rw [Constant.mapList, ih, List.map_cons]

theorem checkElements_map : ∀ (tys : List Ty) (cs : List (Option (Constant σ))),
    (checkElements tys cs).map (List.map (Constant.map f))
      = checkElements tys (cs.map (Option.map (Constant.map f)))
  | ty :: tys, some c :: cs => by
    simp only [checkElements, List.map_cons, Option.map_some, ← checkElements_map tys cs]
    cases checkElements tys cs with
    | error e => rfl
    | ok rest =>
      by_cases h : c.type = ty <;> simp [bind, Except.bind, Except.map, h]
  | _ :: _, none :: _ => rfl
  | [], [] => rfl
  | [], _ :: _ => rfl
  | _ :: _, [] => rfl

/-- The elements of an array, each of which is computed alike, are computed alike. -/
theorem mapM_pointers {g : ℕ → Except Fault (List (Ptr × Ty))} {fields : List ℕ}
    {ps : List (Ptr × Ty)} (h : (fields.mapM g).map List.flatten = .ok ps) :
    ∀ i ∈ fields, ∃ ps', g i = .ok ps' ∧ ∀ x ∈ ps', x ∈ ps := by
  obtain ⟨pss, hpss, rfl⟩ := Except.map_eq_ok.1 h
  intro i hi
  rw [Except.mapM_eq_ok] at hpss
  obtain ⟨k, hk, rfl⟩ := List.getElem_of_mem hi
  have hk' : k < pss.length := hpss.length_eq ▸ hk
  refine ⟨pss[k], hpss.get hk hk', fun x hx => ?_⟩
  exact List.mem_flatten.2 ⟨_, List.getElem_mem hk', hx⟩

theorem structPointers_array {n : ℕ} {elem : Ty} {raw : List UInt8} :
    structPointers DL (.array n elem) raw = ((List.range n).mapM fun field =>
      structPointers DL elem (raw.drop (DL.getTypeAllocSize elem * field))).map List.flatten := by
  rw [structPointers]
  cases (List.range n).mapM fun field =>
    structPointers DL elem (raw.drop (DL.getTypeAllocSize elem * field)) <;> rfl

variable {funcs : Ptr → Option (Constant σ)} {funcs' : Ptr → Option (Constant τ)}

mutual

theorem storeStructFieldAsGlobal_map : ∀ (ty : Ty) (raw : List UInt8) {ps : List (Ptr × Ty)},
    structPointers DL ty raw = .ok ps →
    (∀ x ∈ ps, (funcs x.1).map (Constant.map f) = funcs' x.1) →
    (storeStructFieldAsGlobal DL funcs ty raw).map (Option.map (Constant.map f))
      = storeStructFieldAsGlobal DL funcs' ty raw
  | .struct packed fields, raw, ps, hps, h => by
    rw [structPointers] at hps
    have ih := fieldsAsGlobal_map fields (DL.getElementOffsets packed fields) raw hps h
    simp only [storeStructFieldAsGlobal, ← ih]
    cases fieldsAsGlobal DL funcs fields (DL.getElementOffsets packed fields) raw with
    | error e => rfl
    | ok cs =>
      simp only [bind, Except.bind, Except.map, ← checkElements_map]
      cases checkElements fields cs with
      | error e => rfl
      | ok cs => simp [Constant.map, Constant.mapList_eq]
  | .array n elem, raw, ps, hps, h => by
    rw [structPointers_array] at hps
    have ih : ((List.range n).mapM fun field => storeStructFieldAsGlobal DL funcs elem
        (raw.drop (field * DL.getTypeAllocSize elem))).map (List.map (Option.map (Constant.map f)))
        = (List.range n).mapM fun field => storeStructFieldAsGlobal DL funcs' elem
          (raw.drop (field * DL.getTypeAllocSize elem)) := by
      rw [Except.map_mapM]
      refine Except.mapM_congr fun i hi => ?_
      obtain ⟨ps', hps', hsub⟩ := mapM_pointers hps i hi
      rw [Nat.mul_comm] at hps'
      exact storeStructFieldAsGlobal_map elem _ hps' fun x hx => h x (hsub x hx)
    simp only [storeStructFieldAsGlobal, ← ih]
    cases (List.range n).mapM fun field => storeStructFieldAsGlobal DL funcs elem
        (raw.drop (field * DL.getTypeAllocSize elem)) with
    | error e => rfl
    | ok cs =>
      simp only [bind, Except.bind, Except.map, ← checkElements_map]
      cases checkElements (List.replicate n elem) cs with
      | error e => rfl
      | ok cs => simp [Constant.map, Constant.mapList_eq]
  | .ptr (.func ret params), raw, ps, hps, h => by
    rw [structPointers, Except.bind_eq_ok] at hps
    obtain ⟨p, hp, hps⟩ := hps
    cases hps
    simp only [storeStructFieldAsGlobal, hp, bind, Except.bind, Except.map]
    by_cases hp0 : p = 0
    · simp [hp0, Constant.map]
    · simpa [hp0] using h
  | .ptr (.int _), raw, _, _, _ | .ptr (.fp _), raw, _, _, _ | .ptr (.ptr _), raw, _, _, _
  | .ptr (.vector _ _), raw, _, _, _ | .ptr (.array _ _), raw, _, _, _
  | .ptr (.struct _ _), raw, _, _, _ | .ptr .void, raw, _, _, _ => by
    simp only [storeStructFieldAsGlobal]
    cases readRaw 8 raw <;> rfl
  | .int n, raw, _, _, _ | .fp k, raw, _, _, _ | .vector n ty, raw, _, _, _
  | .func ret ps, raw, _, _, _ | .void, raw, _, _, _ => by
    simp only [storeStructFieldAsGlobal]
    rw [← getConstantFromRaw_map (f := f) (σ := σ)]
    cases getConstantFromRaw (σ := σ) DL _ raw <;> rfl

theorem fieldsAsGlobal_map : ∀ (tys : List Ty) (offsets : List ℕ) (raw : List UInt8)
    {ps : List (Ptr × Ty)}, fieldPointers DL tys offsets raw = .ok ps →
    (∀ x ∈ ps, (funcs x.1).map (Constant.map f) = funcs' x.1) →
    (fieldsAsGlobal DL funcs tys offsets raw).map (List.map (Option.map (Constant.map f)))
      = fieldsAsGlobal DL funcs' tys offsets raw
  | ty :: tys, offset :: offsets, raw, ps, hps, h => by
    simp only [fieldPointers, Except.bind_eq_ok] at hps
    obtain ⟨ps₁, h₁, ps₂, h₂, heq⟩ := hps
    cases heq
    have ih := storeStructFieldAsGlobal_map ty (raw.drop offset) h₁
      fun x hx => h x (List.mem_append_left _ hx)
    have ihs := fieldsAsGlobal_map tys offsets raw h₂ fun x hx => h x (List.mem_append_right _ hx)
    simp only [fieldsAsGlobal, ← ih, ← ihs]
    cases storeStructFieldAsGlobal DL funcs ty (raw.drop offset) with
    | error e => rfl
    | ok c => cases fieldsAsGlobal DL funcs tys offsets raw <;> rfl
  | [], _, _, _, _, _ | _ :: _, [], _, _, _, _ => by
    simp [fieldsAsGlobal, Except.map]

end

end Naturality

/-! ## The functions a struct points to -/

section Prepare

variable {β δ : Type} [BitcodeFormat β δ] {P : Process β δ} {DL : DataLayout}

/-- A pointer to a function is linked in. -/
def linkLeaf (T : BitcodeTracker β) (st : LinkState δ × Funcs (Sym String)) (x : Ptr × Ty) :
    Except Fault (LinkState δ × Funcs (Sym String)) := do
  let (S, c) ← linkPointerIfPossible T st.1 x.1 x.2
  .ok (S, (x.1, c) :: st.2)

theorem getConstantFromRaw_ok_iff {σ τ : Type} {ty : Ty} {raw : List UInt8} :
    (∃ r, getConstantFromRaw (σ := σ) DL ty raw = .ok r)
      ↔ ∃ r, getConstantFromRaw (σ := τ) DL ty raw = .ok r := by
  have h (σ : Type) : (∃ r, getConstantFromRaw (σ := σ) DL ty raw = .ok r)
      ↔ ∃ r, getConstantFromRaw (σ := Empty) DL ty raw = .ok r := by
    rw [← getConstantFromRaw_map (f := (Empty.elim : Empty → σ))]
    simp only [Except.map_eq_ok]
    exact ⟨fun ⟨_, r, h, _⟩ => ⟨r, h⟩, fun ⟨r, h⟩ => ⟨_, r, h, rfl⟩⟩
  rw [h, ← h]

variable {st st' : LinkState δ × Funcs (Sym String)}

mutual

/-- The first walk over a struct links in the functions it points to, one after the other. -/
theorem storeStructFieldPrepare_eq_ok : ∀ {ty : Ty} {raw : List UInt8}
    {st st' : LinkState δ × Funcs (Sym String)},
    storeStructFieldPrepare P.tracker DL ty raw st = .ok st'
      ↔ ∃ ps, structPointers DL ty raw = .ok ps ∧ ps.foldlM (linkLeaf P.tracker) st = .ok st'
  | .struct packed fields, raw, st, st' => by
    rw [storeStructFieldPrepare, structPointers, prepareFields_eq_ok]
  | .array n elem, raw, st, st' => by
    rw [storeStructFieldPrepare, structPointers_array, Except.foldlM_flatten_eq_ok
      (f := linkLeaf P.tracker)
      (g := fun field => structPointers DL elem (raw.drop (DL.getTypeAllocSize elem * field)))
      fun i _ b c => storeStructFieldPrepare_eq_ok]
    simp only [Except.map_eq_ok]
    exact ⟨fun ⟨ass, h, h'⟩ => ⟨_, ⟨ass, h, rfl⟩, h'⟩, fun ⟨_, ⟨ass, h, rfl⟩, h'⟩ => ⟨ass, h, h'⟩⟩
  | .ptr (.func ret params), raw, st, st' => by
    simp only [storeStructFieldPrepare, structPointers, Except.bind_eq_ok]
    constructor
    · rintro ⟨p, hp, h⟩
      refine ⟨_, ⟨p, hp, rfl⟩, ?_⟩
      by_cases hp0 : p = 0
      · simpa [hp0, pure, Except.pure] using h
      · simpa [hp0, List.foldlM_cons, linkLeaf, pure, Except.pure, Except.bind_eq_ok] using h
    · rintro ⟨_, ⟨p, hp, heq⟩, h⟩
      cases heq
      refine ⟨p, hp, ?_⟩
      by_cases hp0 : p = 0
      · simpa [hp0, pure, Except.pure] using h
      · simpa [hp0, List.foldlM_cons, linkLeaf, pure, Except.pure, Except.bind_eq_ok] using h
  | .ptr (.int _), raw, st, st' | .ptr (.fp _), raw, st, st' | .ptr (.ptr _), raw, st, st'
  | .ptr (.vector _ _), raw, st, st' | .ptr (.array _ _), raw, st, st'
  | .ptr (.struct _ _), raw, st, st' | .ptr .void, raw, st, st' => by
    simp [storeStructFieldPrepare, structPointers, pure, Except.pure]
  | .int n, raw, st, st' | .fp k, raw, st, st' | .vector n ty, raw, st, st'
  | .func ret ps, raw, st, st' | .void, raw, st, st' => by
    simp only [storeStructFieldPrepare, structPointers, Except.bind_eq_ok, Except.ok.injEq]
    constructor
    · rintro ⟨r, hr, rfl⟩
      obtain ⟨r', hr'⟩ := getConstantFromRaw_ok_iff.1 ⟨r, hr⟩
      exact ⟨[], ⟨r', hr', rfl⟩, rfl⟩
    · rintro ⟨_, ⟨r, hr, rfl⟩, h⟩
      obtain ⟨r', hr'⟩ := getConstantFromRaw_ok_iff.1 ⟨r, hr⟩
      exact ⟨r', hr', by simpa [pure, Except.pure] using h⟩

theorem prepareFields_eq_ok : ∀ {tys : List Ty} {offsets : List ℕ} {raw : List UInt8}
    {st st' : LinkState δ × Funcs (Sym String)},
    prepareFields P.tracker DL tys offsets raw st = .ok st'
      ↔ ∃ ps, fieldPointers DL tys offsets raw = .ok ps
        ∧ ps.foldlM (linkLeaf P.tracker) st = .ok st'
  | ty :: tys, offset :: offsets, raw, st, st' => by
    simp only [prepareFields, fieldPointers, Except.bind_eq_ok, storeStructFieldPrepare_eq_ok,
      prepareFields_eq_ok]
    constructor
    · rintro ⟨st₁, ⟨ps, hps, h₁⟩, qs, hqs, h⟩
      exact ⟨_, ⟨ps, hps, qs, hqs, rfl⟩, Except.foldlM_append_eq_ok.2 ⟨st₁, h₁, h⟩⟩
    · rintro ⟨_, ⟨ps, hps, qs, hqs, heq⟩, h⟩
      cases heq
      obtain ⟨st₁, h₁, h⟩ := Except.foldlM_append_eq_ok.1 h
      exact ⟨st₁, ⟨ps, hps, h₁⟩, qs, hqs, h⟩
  | [], _, _, _, _ | _ :: _, [], _, _, _ => by
    simp [prepareFields, fieldPointers, pure, Except.pure]

end

/-! ## What the constants stand for -/

/-- What was linked in for each pointer is stable, and stands for what `ts` has for it. -/
def Denotes (M : LModule δ) (funcs : Funcs (Sym String)) (ts : Funcs (Target δ)) : Prop :=
  List.Forall₂ (fun a b => a.1 = b.1 ∧ a.2.map (denote M) = b.2 ∧ ∀ c ∈ a.2, Stable M c) funcs ts

variable {S : LinkState δ} {funcs : Funcs (Sym String)} {ts ts' : Funcs (Target δ)}

theorem Denotes.linkAll {M : LModule δ} (h : Denotes M funcs ts) (srcs : List (LSource δ)) :
    Denotes (M.linkAll srcs) funcs ts :=
  h.imp fun a b ⟨hp, hc, hst⟩ => by
    refine ⟨hp, ?_, fun c hc' => (hst c hc').linkAll⟩
    rw [← hc]
    cases hca : a.2 with
    | none => rfl
    | some c => rw [Option.map_some, Option.map_some, hst c hca srcs]

theorem Denotes.lookup {M : LModule δ} (h : Denotes M funcs ts) (p : Ptr) :
    (funcs.lookup p).map (denote M) = ts.lookup p := by
  induction h with
  | nil => rfl
  | @cons a b funcs ts hab _ ih =>
    obtain ⟨hp, hc, -⟩ := hab
    unfold Funcs.lookup at ih ⊢
    rw [List.find?_cons, List.find?_cons, ← hp]
    by_cases hap : a.1 = p
    · simp only [hap, decide_true, Option.map_some, ← hc]
      cases a.2 <;> rfl
    · simpa only [hap, decide_false] using ih

theorem leaves_ok : ∀ {ps : List (Ptr × Ty)} {st st' : LinkState δ × Funcs (Sym String)}
    {ts : Funcs (Target δ)}, ps.foldlM (linkLeaf P.tracker) st = .ok st' →
    Denotes st.1.mod st.2 ts →
    st'.1 = st.1.linkSources (ps.flatMap fun x => P.pointerSources x.1)
      ∧ ∃ ts', structTargets P ps ts = .ok ts' ∧ Denotes st'.1.mod st'.2 ts'
  | [], _, _, ts, h, hd => by
    cases h
    exact ⟨rfl, ts, rfl, hd⟩
  | (p, ty) :: ps, st, st', ts, h, hd => by
    simp only [List.foldlM_cons, linkLeaf, Except.bind_eq_ok] at h
    obtain ⟨_, ⟨⟨S₁, c⟩, h₁, heq⟩, h⟩ := h
    cases heq
    obtain ⟨rfl, hst, ht⟩ := linkPointerIfPossible_ok h₁
    have hd₁ : Denotes (st.1.linkSources (P.pointerSources p)).mod ((p, c) :: st.2)
        ((p, c.map (denote (st.1.linkSources (P.pointerSources p)).mod)) :: ts) := by
      refine .cons ⟨rfl, rfl, hst⟩ ?_
      rw [LinkState.mod_linkSources]
      exact hd.linkAll _
    obtain ⟨hS, ts', hts, hd'⟩ := leaves_ok h hd₁
    refine ⟨?_, ts', ?_, hd'⟩
    · rw [hS, List.flatMap_cons, LinkState.linkSources_append]
    · simp only [structTargets, ht, bind, Except.bind, hts]

theorem leaves_of_structTargets : ∀ {ps : List (Ptr × Ty)} {ts ts' : Funcs (Target δ)},
    structTargets P ps ts = .ok ts' → ∀ st : LinkState δ × Funcs (Sym String),
    ∃ st', ps.foldlM (linkLeaf P.tracker) st = .ok st'
  | [], _, _, _, st => ⟨st, rfl⟩
  | (p, ty) :: ps, ts, ts', h, st => by
    simp only [structTargets, Except.bind_eq_ok] at h
    obtain ⟨t, ht, h⟩ := h
    obtain ⟨S₁, c, h₁⟩ := linkPointerIfPossible_of_linkTarget (S := st.1) ht
    obtain ⟨st', hst'⟩ := leaves_of_structTargets h (S₁, (p, c) :: st.2)
    exact ⟨st', by simp only [List.foldlM_cons, linkLeaf, h₁, bind, Except.bind, ← hst']⟩

theorem initialiser_denote {M : LModule δ} {ty : Ty} {data : List UInt8} {ps : List (Ptr × Ty)}
    (hps : structPointers DL ty data = .ok ps) (hd : Denotes M funcs ts) :
    (storeStructFieldAsGlobal DL funcs.lookup ty data).map (Option.map (denote M))
      = storeStructFieldAsGlobal DL ts.lookup ty data :=
  storeStructFieldAsGlobal_map ty data hps fun x _ => hd.lookup x.1

/-- A struct is passed as the address of a stable constant, which stands for what the struct
does. -/
theorem getGlobalStruct_ok {S' : LinkState δ} {data : List UInt8} {ty : Ty} {c : LConstant}
    (h : getGlobalStruct P.tracker P.layout S data (.ptr ty) = .ok (S', c)) :
    ∃ ps, structPointers P.layout ty data = .ok ps
      ∧ S' = S.linkSources (ps.flatMap fun x => P.pointerSources x.1) ∧ Stable S'.mod c
      ∧ structTarget P data (.ptr ty) = .ok (denote S'.mod c) := by
  simp only [getGlobalStruct, Except.bind_eq_ok, storeStructFieldPrepare_eq_ok] at h
  obtain ⟨⟨S₁, funcs⟩, ⟨ps, hps, hleaves⟩, o, ho, h⟩ := h
  obtain ⟨hS, ts, hts, hd⟩ := leaves_ok hleaves (.nil : Denotes S.mod [] [])
  cases o with
  | none => cases h
  | some c₀ =>
    simp only at h
    split_ifs at h with htype
    cases h
    have hden : storeStructFieldAsGlobal P.layout ts.lookup ty data
        = .ok (some (denote S'.mod c₀)) := by
      rw [← initialiser_denote hps hd, ho]
      rfl
    refine ⟨ps, hps, hS, fun srcs => ?_, ?_⟩
    · have hden' := initialiser_denote hps (hd.linkAll srcs)
      simp only [ho, hden, Except.map, Option.map_some, Except.ok.injEq, Option.some.injEq]
        at hden'
      simp only [denote, Constant.map] at hden' ⊢
      rw [hden']
    · simp only [structTarget, hps, hts, hden, bind, Except.bind, denote, Constant.map,
        Constant.type_map, htype, if_true]

theorem getGlobalStruct_of_structTarget {data : List UInt8} {ty : Ty} {t : Constant (Target δ)}
    (h : structTarget P data (.ptr ty) = .ok t) :
    ∃ S' c, getGlobalStruct P.tracker P.layout S data (.ptr ty) = .ok (S', c) := by
  simp only [structTarget, Except.bind_eq_ok] at h
  obtain ⟨ps, hps, ts, hts, o, ho, h⟩ := h
  obtain ⟨⟨S₁, funcs⟩, hleaves⟩ := leaves_of_structTargets hts (S, [])
  obtain ⟨-, ts', hts', hd⟩ := leaves_ok hleaves (.nil : Denotes S.mod [] [])
  rw [hts] at hts'
  cases hts'
  rw [← initialiser_denote hps hd, Except.map_eq_ok] at ho
  obtain ⟨o₀, ho₀, rfl⟩ := ho
  cases o₀ with
  | none => cases h
  | some c₀ =>
    simp only [Option.map_some, denote, Constant.type_map] at h
    split_ifs at h with htype
    refine ⟨S₁, .address ty c₀, ?_⟩
    have hprep : storeStructFieldPrepare P.tracker P.layout ty data (S, []) = .ok (S₁, funcs) :=
      storeStructFieldPrepare_eq_ok.2 ⟨ps, hps, hleaves⟩
    simp only [getGlobalStruct, hprep, ho₀, bind, Except.bind, htype, if_true]

end Prepare

end EasyJit
