import EasyJit.Proofs.Image
import EasyJit.Specialise

/-!
# The pointers in a captured struct

`GetGlobalStruct` walks over a struct twice: to link in the functions it points to, which are kept
by their addresses, and to build the initialiser. Its pointers are passed like pointer arguments
exactly when it has no pointers to data, and each of its function pointers is null or registered
for the type of its leaf (`getGlobalStruct_passesPointers_iff`).
-/

namespace EasyJit

open LLVM Linker

variable {β δ : Type} [BitcodeFormat β δ] {P : Process β δ} {S : LinkState δ} {ty : Ty}
  {raw : List UInt8}

/-- The address that a leaf of the buffer holds. -/
def leafAddress (DL : DataLayout) (raw : List UInt8) (l : ℕ × Ty) : Ptr :=
  leNat ((raw.drop l.1).take DL.pointerSize)

/-- The null pointer, written in one way. -/
def normalPointer {σ : Type} : Constant σ → Constant σ
  | .intToPtr addr ty => if addr = 0 then .null ty else .intToPtr addr ty
  | c => c

/-- What is placed at a pointer leaf has the type of the leaf, and is what a pointer argument with
the same address is passed as. -/
def PassesPointer (P : Process β δ) (raw : List UInt8) (l : ℕ × Ty) (t : Constant (Target δ)) :
    Prop :=
  t.type = l.2 ∧ ∃ t', captured P (paramArg 0 l.2) (.ptr (leafAddress P.layout raw l)) = .ok [t']
    ∧ normalPointer t = normalPointer t'

/-- The struct is passed as a constant, whose constants at the pointer leaves are what pointer
arguments would be passed as. -/
def PassesPointers (P : Process β δ) (S : LinkState δ) (ty : Ty) (raw : List UInt8) : Prop :=
  ∃ S' c, getGlobalStruct P.tracker P.layout S raw (.ptr ty) = .ok (S', .address ty c)
    ∧ List.Forall₂ (fun l l' => l.1 = l'.1 ∧ (l.2.isPointerTy = true →
      PassesPointer P raw l (denote S'.mod l'.2))) (P.layout.leaves ty 0) (c.leaves P.layout 0)

/-- The leaves can be captured: scalars that are decoded, and pointers to functions that are null
or registered for the type of the leaf, where leaves that hold one address have one type. -/
structure LeavesCapturable (P : Process β δ) (ty : Ty) (raw : List UInt8) : Prop where
  covered : ∀ l ∈ P.layout.leaves ty 0, P.layout.getTypeStoreSize l.2 ≤ (raw.drop l.1).length
  scalar : ∀ l ∈ P.layout.leaves ty 0, isDecodable P.layout l.2 = true
  function : ∀ l ∈ P.layout.leaves ty 0, l.2.isPointerTy = true →
    ∃ ret params, l.2 = .ptr (.func ret params)
  registered : ∀ l ∈ P.layout.leaves ty 0, l.2.isPointerTy = true →
    leafAddress P.layout raw l ≠ 0 →
      ∃ t, linkTarget P (leafAddress P.layout raw l) l.2 = .ok (some t) ∧ t.type = l.2
  agree : ∀ l ∈ P.layout.leaves ty 0, ∀ l' ∈ P.layout.leaves ty 0, l.2.isPointerTy = true →
    l'.2.isPointerTy = true → leafAddress P.layout raw l ≠ 0 →
    leafAddress P.layout raw l = leafAddress P.layout raw l' → l.2 = l'.2

/-! ## What is linked in for an address -/

/-- What is kept for an address is what was linked in for the last leaf that holds it. -/
theorem structTargets_lookup : ∀ {ps : List (Ptr × Ty)} {ts ts' : Funcs (Target δ)},
    structTargets P ps ts = .ok ts' → ∀ p : Ptr,
    (∃ ty, (p, ty) ∈ ps ∧ linkTarget P p ty = .ok (ts'.lookup p))
      ∨ (∀ ty, (p, ty) ∉ ps) ∧ ts'.lookup p = ts.lookup p
  | [], _, _, h, p => by
    cases h
    exact .inr ⟨fun _ => List.not_mem_nil, rfl⟩
  | (q, ty) :: ps, ts, ts', h, p => by
    simp only [structTargets, Except.bind_eq_ok] at h
    obtain ⟨t, ht, h⟩ := h
    rcases structTargets_lookup h p with ⟨ty', hmem, hlink⟩ | ⟨hnot, hlookup⟩
    · exact .inl ⟨ty', List.mem_cons_of_mem _ hmem, hlink⟩
    · by_cases hq : q = p
      · subst hq
        refine .inl ⟨ty, List.mem_cons_self, ?_⟩
        rw [hlookup, ht]
        simp [Funcs.lookup]
      · refine .inr ⟨fun ty' hty' => ?_, ?_⟩
        · rcases List.mem_cons.1 hty' with heq | hmem
          · cases heq
            exact hq rfl
          · exact hnot ty' hmem
        · rw [hlookup]
          simp [Funcs.lookup, hq]

theorem exists_structTargets : ∀ (ps : List (Ptr × Ty)) (ts : Funcs (Target δ)),
    (∀ x ∈ ps, ∃ t, linkTarget P x.1 x.2 = .ok t) → ∃ ts', structTargets P ps ts = .ok ts'
  | [], ts, _ => ⟨ts, rfl⟩
  | (p, ty) :: ps, ts, h => by
    obtain ⟨t, ht⟩ := h _ List.mem_cons_self
    obtain ⟨ts', hts'⟩ := exists_structTargets ps ((p, t) :: ts)
      fun x hx => h x (List.mem_cons_of_mem _ hx)
    exact ⟨ts', by simp only [structTargets, ht, bind, Except.bind, hts']⟩

theorem linkTarget_null (ty : Ty) : linkTarget P 0 ty = .ok none := by
  have hnone : P.registration? 0 = none := by
    rw [Process.registration?, List.find?_eq_none]
    intro r _ hr
    exact r.fptr_ne (by simpa using hr)
  simp [linkTarget, Process.source?, hnone, bind, Except.bind]

/-- A pointer argument is passed as what its address is registered for, or as the address. -/
theorem captured_ptr {l : ℕ × Ty} {t : Option (Constant (Target δ))} {p : Ptr}
    (hl : l.2.isPointerTy = true) (ht : linkTarget P p l.2 = .ok t) :
    captured P (paramArg 0 l.2) (.ptr p)
      = .ok [t.getD (.intToPtr (BitVec.ofNat 64 p) l.2)] := by
  have hfirst : firstType (paramArg 0 l.2) = .ok l.2 := rfl
  obtain ⟨ty, hty⟩ : ∃ ty, l.2 = .ptr ty := by
    cases h : l.2 <;> simp [h, Ty.isPointerTy] at hl ⊢
  have hval : scalarConstant (σ := Target δ) (.ptr p) l.2
      = .ok (.intToPtr (BitVec.ofNat 64 p) l.2) := by
    rw [hty]
    rfl
  simp only [captured, hfirst, hval, ht, bind, Except.bind]

/-! ## Leaves -/

section Leaf

variable {σ : Type} {DL : DataLayout} {funcs : Ptr → Option (Constant σ)} {l : ℕ × Ty}
  {c : Constant σ}

theorem storeSize_ptr (pointee : Ty) : DL.getTypeStoreSize (.ptr pointee) = DL.pointerSize := by
  rw [DataLayout.getTypeStoreSize, DataLayout.getTypeSizeInBits, DataLayout.measure]
  omega

theorem readPtr_leaf {p : Ptr} (o : ℕ) (ty : Ty) : readPtr DL (raw.drop o) = .ok p
    ↔ DL.pointerSize ≤ (raw.drop o).length ∧ leafAddress DL raw (o, ty) = p := by
  unfold readPtr
  rw [Except.bind_eq_ok]
  constructor
  · rintro ⟨bs, hbs, h⟩
    obtain ⟨hle, rfl⟩ := readRaw_eq_ok.1 hbs
    cases h
    exact ⟨hle, rfl⟩
  · rintro ⟨hle, rfl⟩
    exact ⟨_, readRaw_eq_ok.2 ⟨hle, rfl⟩, rfl⟩

/-- A pointer leaf has an initialiser when it is a null function pointer, or one that something of
its type was linked in for. -/
theorem initialises_pointer_iff (hl : l.2.isPointerTy = true) : Initialises DL funcs raw l c
    ↔ (∃ ret params, l.2 = .ptr (.func ret params))
      ∧ DL.getTypeStoreSize l.2 ≤ (raw.drop l.1).length ∧ c.type = l.2
      ∧ if leafAddress DL raw l = 0 then c = .null l.2
        else funcs (leafAddress DL raw l) = some c := by
  obtain ⟨o, ty⟩ := l
  cases ty with
  | ptr pointee =>
    rw [storeSize_ptr]
    cases pointee with
    | func ret params =>
      simp only [Initialises, storeStructFieldAsGlobal, Except.bind_eq_ok,
        readPtr_leaf o (.ptr (.func ret params))]
      constructor
      · rintro ⟨⟨p, ⟨hsize, rfl⟩, h⟩, htype⟩
        refine ⟨⟨ret, params, rfl⟩, hsize, htype, ?_⟩
        split_ifs with hp
        · simpa [hp, eq_comm] using h
        · simpa [hp] using h
      · rintro ⟨-, hsize, htype, h⟩
        refine ⟨⟨_, ⟨hsize, rfl⟩, ?_⟩, htype⟩
        split_ifs at h with hp
        · simp [hp, h]
        · simp [hp, h]
    | _ =>
      simp only [Initialises, storeStructFieldAsGlobal, Except.bind_eq_ok]
      constructor
      · rintro ⟨⟨_, -, h⟩, -⟩
        cases h
      · rintro ⟨⟨ret, params, h⟩, -⟩
        cases h
  | _ => simp [Ty.isPointerTy] at hl

theorem structPointers_pointer {ret : Ty} {params : List Ty} {o : ℕ}
    (hsize : DL.getTypeStoreSize (.ptr (.func ret params)) ≤ (raw.drop o).length) :
    structPointers DL (.ptr (.func ret params)) (raw.drop o)
      = .ok (if leafAddress DL raw (o, .ptr (.func ret params)) ≠ 0 then
        [(leafAddress DL raw (o, .ptr (.func ret params)), .ptr (.func ret params))] else []) := by
  rw [storeSize_ptr] at hsize
  have hread := (readPtr_leaf o (.ptr (.func ret params))).2 ⟨hsize, rfl⟩
  simp only [structPointers, hread, bind, Except.bind]

end Leaf

/-! ## The two walks agree -/

section Walks

variable {ps : List (Ptr × Ty)} {ts : Funcs (Target δ)} {l : ℕ × Ty}

/-- The only function a leaf points to is the one at its address. -/
theorem mem_structPointers_leaf {DL : DataLayout} {qs : List (Ptr × Ty)} {x : Ptr × Ty}
    (hl : l.2.isAggregateType = false) (h : structPointers DL l.2 (raw.drop l.1) = .ok qs)
    (hx : x ∈ qs) :
    l.2.isPointerTy = true ∧ leafAddress DL raw l ≠ 0 ∧ x = (leafAddress DL raw l, l.2) := by
  obtain ⟨o, ty⟩ := l
  cases ty with
  | ptr pointee =>
    cases pointee with
    | func ret params =>
      simp only [structPointers, Except.bind_eq_ok, readPtr_leaf o (.ptr (.func ret params)),
        Except.ok.injEq] at h
      obtain ⟨p, ⟨-, rfl⟩, rfl⟩ := h
      split_ifs at hx with hp
      · exact ⟨rfl, hp, List.mem_singleton.1 hx⟩
      · cases hx
    | _ =>
      simp only [structPointers, Except.ok.injEq] at h
      rw [← h] at hx
      cases hx
  | array _ _ | struct _ _ => simp [Ty.isAggregateType] at hl
  | _ =>
    simp only [structPointers, Except.bind_eq_ok, Except.ok.injEq] at h
    obtain ⟨_, -, rfl⟩ := h
    cases hx

/-- What was linked in for an address is kept under the type of every leaf that holds it. -/
theorem lookup_leaf (hps : structPointers P.layout ty raw = .ok ps)
    (hts : structTargets P ps [] = .ok ts) (hl : l ∈ P.layout.leaves ty 0)
    (hfun : ∃ ret params, l.2 = .ptr (.func ret params))
    (hsize : P.layout.getTypeStoreSize l.2 ≤ (raw.drop l.1).length)
    (hp : leafAddress P.layout raw l ≠ 0) : ∃ l' ∈ P.layout.leaves ty 0, l'.2.isPointerTy = true
      ∧ leafAddress P.layout raw l' = leafAddress P.layout raw l
      ∧ linkTarget P (leafAddress P.layout raw l) l'.2
        = .ok (ts.lookup (leafAddress P.layout raw l)) := by
  obtain ⟨hleaf, hmem⟩ := structPointers_leaves (o := 0) hps
  rcases structTargets_lookup hts (leafAddress P.layout raw l) with ⟨ty', hty', hlink⟩ | ⟨hnot, -⟩
  · obtain ⟨l', hl', qs, hqs, hx⟩ := hmem _ hty'
    obtain ⟨hptr, -, heq⟩ := mem_structPointers_leaf (DataLayout.scalar_of_mem_leaves l' hl') hqs hx
    rw [Prod.mk.injEq] at heq
    obtain ⟨hp', rfl⟩ := heq
    exact ⟨l', hl', hptr, hp'.symm, hlink⟩
  · obtain ⟨qs, hqs, hsub⟩ := hleaf l hl
    obtain ⟨ret, params, hty⟩ := hfun
    obtain ⟨o, ty₁⟩ := l
    cases hty
    rw [structPointers_pointer hsize, if_pos hp] at hqs
    cases hqs
    exact absurd (hsub (List.mem_singleton_self _)) (hnot _)

theorem structTarget_eq_ok {t : Constant (Target δ)} :
    structTarget P raw (.ptr ty) = .ok (.address ty t)
      ↔ ∃ ps ts, structPointers P.layout ty raw = .ok ps ∧ structTargets P ps [] = .ok ts
        ∧ Initialises P.layout ts.lookup raw (0, ty) t := by
  simp only [structTarget, Except.bind_eq_ok]
  constructor
  · rintro ⟨ps, hps, ts, hts, o, ho, h⟩
    cases o with
    | none => cases h
    | some c =>
      simp only at h
      split_ifs at h with htype
      cases h
      exact ⟨ps, ts, hps, hts, ho, htype⟩
  · rintro ⟨ps, ts, hps, hts, ho, htype⟩
    exact ⟨ps, hps, ts, hts, some t, ho, if_pos htype⟩

/-- If every leaf has an initialiser, each function pointer that is not null is registered, and
its initialiser is what it is registered for. -/
theorem linkTarget_leaf (hps : structPointers P.layout ty raw = .ok ps)
    (hts : structTargets P ps [] = .ok ts)
    (hall : ∀ l ∈ P.layout.leaves ty 0, ∃ c, Initialises P.layout ts.lookup raw l c)
    {c : Constant (Target δ)} (hl : l ∈ P.layout.leaves ty 0) (hptr : l.2.isPointerTy = true)
    (hp : leafAddress P.layout raw l ≠ 0) (hc : Initialises P.layout ts.lookup raw l c) :
    ts.lookup (leafAddress P.layout raw l) = some c
      ∧ linkTarget P (leafAddress P.layout raw l) l.2 = .ok (some c) := by
  obtain ⟨hfun, hsize, htype, hif⟩ := (initialises_pointer_iff hptr).1 hc
  rw [if_neg hp] at hif
  obtain ⟨l', hl', hptr', hp', hlink⟩ := lookup_leaf hps hts hl hfun hsize hp
  obtain ⟨c', hc'⟩ := hall l' hl'
  obtain ⟨-, -, htype', hif'⟩ := (initialises_pointer_iff hptr').1 hc'
  rw [if_neg (hp' ▸ hp), hp', hif] at hif'
  cases hif'
  rw [← htype', htype, hif] at hlink
  exact ⟨hif, hlink⟩

/-- A struct that is captured has leaves that can be, and its pointers are passed like pointer
arguments. -/
theorem leavesCapturable_of_structTarget {t : Constant (Target δ)}
    (h : structTarget P raw (.ptr ty) = .ok (.address ty t)) :
    LeavesCapturable P ty raw
      ∧ List.Forall₂ (fun l l' => l.1 = l'.1
        ∧ (l.2.isPointerTy = true → PassesPointer P raw l l'.2))
        (P.layout.leaves ty 0) (t.leaves P.layout 0) := by
  obtain ⟨ps, ts, hps, hts, ht⟩ := structTarget_eq_ok.1 h
  have hleaves := ht.leaves
  have hall : ∀ l ∈ P.layout.leaves ty 0, ∃ c, Initialises P.layout ts.lookup raw l c := by
    intro l hl
    obtain ⟨i, hi, rfl⟩ := List.mem_iff_getElem.1 hl
    have hi' : i < (t.leaves P.layout 0).length := hleaves.length_eq ▸ hi
    exact ⟨_, (hleaves.get hi hi').2⟩
  have hscalar (l : ℕ × Ty) (hl : l ∈ P.layout.leaves ty 0) : isDecodable P.layout l.2 = true
      ∧ P.layout.getTypeStoreSize l.2 ≤ (raw.drop l.1).length := by
    obtain ⟨c, hc⟩ := hall l hl
    cases hptr : l.2.isPointerTy with
    | true =>
      obtain ⟨⟨ret, params, hfun⟩, hsize, -⟩ := (initialises_pointer_iff hptr).1 hc
      exact ⟨by rw [hfun]; rfl, hsize⟩
    | false =>
      have hget := hc.1
      rw [storeStructFieldAsGlobal_scalar (DataLayout.scalar_of_mem_leaves l hl) hptr,
        Except.map_eq_ok] at hget
      obtain ⟨⟨_, n⟩, hget, rfl⟩ := hget
      exact isDecodable_of_eq_ok hget
  refine ⟨⟨fun l hl => (hscalar l hl).2, fun l hl => (hscalar l hl).1, fun l hl hptr => ?_,
    fun l hl hptr hp => ?_, fun l hl l' hl' hptr hptr' hp heq => ?_⟩, ?_⟩
  · obtain ⟨c, hc⟩ := hall l hl
    exact ((initialises_pointer_iff hptr).1 hc).1
  · obtain ⟨c, hc⟩ := hall l hl
    exact ⟨c, (linkTarget_leaf hps hts hall hl hptr hp hc).2, hc.2⟩
  · obtain ⟨c, hc⟩ := hall l hl
    obtain ⟨c', hc'⟩ := hall l' hl'
    have h₁ := (linkTarget_leaf hps hts hall hl hptr hp hc).1
    have h₂ := (linkTarget_leaf hps hts hall hl' hptr' (heq ▸ hp) hc').1
    rw [heq, h₂] at h₁
    cases h₁
    rw [← hc.2, ← hc'.2]
  · rw [List.forall₂_iff_get] at hleaves ⊢
    refine ⟨hleaves.1, fun i hi hi' => ?_⟩
    obtain ⟨ho, hc⟩ := hleaves.2 i hi hi'
    refine ⟨ho, fun hptr => ⟨hc.2, ?_⟩⟩
    by_cases hp : leafAddress P.layout raw ((P.layout.leaves ty 0).get ⟨i, hi⟩) = 0
    · obtain ⟨-, -, -, hif⟩ := (initialises_pointer_iff hptr).1 hc
      rw [if_pos hp] at hif
      refine ⟨_, captured_ptr hptr (by rw [hp]; exact linkTarget_null _), ?_⟩
      rw [hif, hp]
      rfl
    · obtain ⟨-, hlink⟩ := linkTarget_leaf hps hts hall (List.get_mem _ _) hptr hp hc
      exact ⟨_, captured_ptr hptr hlink, rfl⟩

/-- A struct with leaves that can be captured is. -/
theorem exists_structTarget (h : LeavesCapturable P ty raw) :
    ∃ t, structTarget P raw (.ptr ty) = .ok (.address ty t) := by
  have hpointers (l : ℕ × Ty) (hl : l ∈ P.layout.leaves ty 0) :
      ∃ qs, structPointers P.layout l.2 (raw.drop l.1) = .ok qs := by
    cases hptr : l.2.isPointerTy with
    | true =>
      obtain ⟨ret, params, hfun⟩ := h.function l hl hptr
      have hsize := h.covered l hl
      obtain ⟨o, ty₁⟩ := l
      cases hfun
      exact ⟨_, structPointers_pointer hsize⟩
    | false => exact ⟨_, structPointers_scalar hptr (h.scalar l hl) (h.covered l hl)⟩
  obtain ⟨ps, hps⟩ := exists_structPointers ty (o := 0) hpointers
  rw [List.drop_zero] at hps
  have hlinks : ∀ x ∈ ps, ∃ t, linkTarget P x.1 x.2 = .ok t := by
    intro x hx
    obtain ⟨l, hl, qs, hqs, hxq⟩ := (structPointers_leaves (o := 0) hps).2 x hx
    obtain ⟨hptr, hp, rfl⟩ :=
      mem_structPointers_leaf (DataLayout.scalar_of_mem_leaves l hl) hqs hxq
    obtain ⟨t, ht, -⟩ := h.registered l hl hptr hp
    exact ⟨_, ht⟩
  obtain ⟨ts, hts⟩ := exists_structTargets ps [] hlinks
  have hleaf (l : ℕ × Ty) (hl : l ∈ P.layout.leaves ty 0) :
      ∃ c, Initialises P.layout ts.lookup raw l c := by
    cases hptr : l.2.isPointerTy with
    | true =>
      have hfun := h.function l hl hptr
      have hsize := h.covered l hl
      by_cases hp : leafAddress P.layout raw l = 0
      · exact ⟨.null l.2, (initialises_pointer_iff hptr).2 ⟨hfun, hsize, rfl, by rw [if_pos hp]⟩⟩
      · obtain ⟨t, ht, htype⟩ := h.registered l hl hptr hp
        obtain ⟨l', hl', hptr', hp', hlink⟩ := lookup_leaf hps hts hl hfun hsize hp
        rw [← h.agree l hl l' hl' hptr hptr' hp hp'.symm, ht] at hlink
        refine ⟨t, (initialises_pointer_iff hptr).2 ⟨hfun, hsize, htype, ?_⟩⟩
        rw [if_neg hp]
        exact (Except.ok.inj hlink).symm
    | false =>
      obtain ⟨c, hc, htype, -⟩ := decodes_of_isDecodable (h.covered l hl) (h.scalar l hl)
      refine ⟨c, ?_, htype⟩
      rw [storeStructFieldAsGlobal_scalar (DataLayout.scalar_of_mem_leaves l hl) hptr, hc]
      rfl
  obtain ⟨t, ht⟩ := exists_initialises ty hleaf
  exact ⟨t, structTarget_eq_ok.2 ⟨ps, ts, hps, hts, ht⟩⟩

end Walks

/-! ## Structs -/

namespace Constant

variable {σ τ : Type} {f : σ → τ} {DL : DataLayout}

mutual

theorem leaves_map : ∀ {c : Constant σ} {o : ℕ},
    (c.map f).leaves DL o = (c.leaves DL o).map fun l => (l.1, l.2.map f)
  | .struct ty cs, o => by
    rw [map]
    cases ty with
    | struct packed fields =>
      rw [leaves, leaves]
      exact elementLeaves_map cs
    | _ => simp [leaves, map]
  | .array ty cs, o => by
    rw [map]
    cases ty with
    | array n elem =>
      rw [leaves, leaves]
      exact elementLeaves_map cs
    | _ => simp [leaves, map]
  | .int _ _, _ | .fp _ _, _ | .null _, _ | .intToPtr _ _, _ | .bytes _ _, _ | .global _ _, _
  | .splat _ _, _ | .pointerCast _ _, _ | .address _ _, _ => by simp [leaves, map]

theorem elementLeaves_map : ∀ (cs : List (Constant σ)) {offsets : List ℕ} {o : ℕ},
    elementLeaves DL (mapList f cs) offsets o
      = (elementLeaves DL cs offsets o).map fun l => (l.1, l.2.map f)
  | c :: cs, offset :: offsets, o => by
    rw [mapList, elementLeaves, elementLeaves, List.map_append, leaves_map (c := c),
      elementLeaves_map cs]
  | [], offsets, o => by cases offsets <;> rfl
  | _ :: _, [], o => rfl

end

end Constant

/-- The pointers of a struct are passed like pointer arguments exactly when its leaves can be
captured. -/
theorem getGlobalStruct_passesPointers_iff :
    PassesPointers P S ty raw ↔ LeavesCapturable P ty raw := by
  constructor
  · rintro ⟨S', c, hc, -⟩
    obtain ⟨-, -, -, -, ht⟩ := getGlobalStruct_ok hc
    exact (leavesCapturable_of_structTarget ht).1
  · intro h
    obtain ⟨t, ht⟩ := exists_structTarget h
    obtain ⟨S', c₀, hc₀⟩ := getGlobalStruct_of_structTarget (S := S) ht
    obtain ⟨-, -, -, -, ht₀⟩ := getGlobalStruct_ok hc₀
    have hc₀' := hc₀
    simp only [getGlobalStruct, Except.bind_eq_ok] at hc₀'
    obtain ⟨⟨S₁, funcs⟩, -, o, -, heq⟩ := hc₀'
    cases o with
    | none => cases heq
    | some c =>
      simp only at heq
      split_ifs at heq
      cases heq
      have hleaves := (leavesCapturable_of_structTarget ht₀).2
      rw [Constant.leaves_map, List.forall₂_map_right_iff] at hleaves
      exact ⟨S', c, hc₀, hleaves⟩

section Samples

open Sample

attribute [local instance] BitcodeFormat.self

/-- A struct with a pointer to a registered function. -/
theorem getGlobalStruct_passesPointers_iff_callback :
    let M : LModule Unit := define .empty 0 "f" [] []
    let P : Process (LModule Unit) Unit :=
      process [register 16 "f" [] M (by decide) isCString_f rfl rfl]
    let S : LinkState Unit := ⟨.empty, []⟩
    let ty : Ty := .struct false [.ptr (.func .void []), .int 32]
    let raw : List UInt8 := [16, 0, 0, 0, 0, 0, 0, 0, 7, 0, 0, 0, 0xAA, 0xAA, 0xAA, 0xAA]
    LeavesCapturable P ty raw ∧ PassesPointers P S ty raw := by
  intro M P S ty raw
  have hleaves : P.layout.leaves ty 0 = [(0, .ptr (.func .void [])), (8, .int 32)] := by decide
  have h : LeavesCapturable P ty raw := by
    refine ⟨?_, ?_, ?_, ?_, ?_⟩
    all_goals rw [hleaves]
    · decide
    · decide
    · simp [Ty.isPointerTy]
    · simp only [List.forall_mem_cons, List.not_mem_nil, false_implies, implies_true, and_true]
      exact ⟨fun _ _ => ⟨_, rfl, rfl⟩, fun h => by cases h⟩
    · simp [Ty.isPointerTy]
  exact ⟨h, getGlobalStruct_passesPointers_iff.2 h⟩

/-- A struct with a pointer to data is not captured. -/
theorem dataPointer_not_passesPointers :
    let P : Process (LModule Unit) Unit := process []
    let S : LinkState Unit := ⟨.empty, []⟩
    let ty : Ty := .struct false [.ptr (.int 32)]
    let raw : List UInt8 := [0, 16, 0, 0, 0, 0, 0, 0]
    getGlobalStruct P.tracker P.layout S raw (.ptr ty) = .error .illTyped
      ∧ ¬ PassesPointers P S ty raw := by
  intro P S ty raw
  have hprep : storeStructFieldPrepare P.tracker P.layout ty raw (S, []) = .ok (S, []) := rfl
  have hdata (funcs : Ptr → Option LConstant) :
      storeStructFieldAsGlobal .x86_64 funcs (.struct false [.ptr (.int 32)])
        [0, 16, 0, 0, 0, 0, 0, 0] = .error .illTyped := rfl
  have hinit : storeStructFieldAsGlobal P.layout (Funcs.lookup []) ty raw = .error .illTyped :=
    hdata _
  have herr : getGlobalStruct P.tracker P.layout S raw (.ptr ty) = .error .illTyped := by
    simp only [getGlobalStruct, hprep, hinit, bind, Except.bind]
  refine ⟨herr, ?_⟩
  rintro ⟨S', c, hc, -⟩
  rw [herr] at hc
  cases hc

end Samples

end EasyJit
