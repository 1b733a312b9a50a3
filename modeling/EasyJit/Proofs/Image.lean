import EasyJit.Image
import EasyJit.Lib.TwosComplement
import EasyJit.Proofs.Structs
import EasyJit.Sample

/-!
# The bytes of captured structs

`GetConstantFromRaw` decodes some scalars (`getConstantFromRaw_decodes_iff`). The initialiser of a
struct is made of the constants of its leaves, each decoded from the bytes at its offset, so the
memory it takes up holds the bytes of the struct (`getGlobalStruct_image`).
-/

namespace EasyJit

open LLVM

/-! ## Little-endian numbers -/

theorem leBytes_leNat : ∀ bs : List UInt8, leBytes bs.length (leNat bs) = bs
  | [] => rfl
  | b :: bs => by
    have hdiv : (b.toNat + 256 * leNat bs) / 256 = leNat bs := by
      have := b.toNat_lt
      omega
    have hmod : UInt8.ofNat (b.toNat + 256 * leNat bs) = b := by
      apply UInt8.toNat_inj.1
      have := b.toNat_lt
      rw [UInt8.toNat_ofNat']
      omega
    rw [List.length_cons, leNat, leBytes, hdiv, hmod, leBytes_leNat bs]

theorem leNat_lt : ∀ bs : List UInt8, leNat bs < 2 ^ (8 * bs.length)
  | [] => Nat.one_pos
  | b :: bs => by
    have hb := b.toNat_lt
    have ih := leNat_lt bs
    rw [leNat, List.length_cons, Nat.mul_add, Nat.pow_add]
    omega

theorem length_leBytes : ∀ n v : ℕ, (leBytes n v).length = n
  | 0, _ => rfl
  | n + 1, v => by rw [leBytes, List.length_cons, length_leBytes n]

theorem leNat_leBytes : ∀ {n v : ℕ}, v < 2 ^ (8 * n) → leNat (leBytes n v) = v
  | 0, v, h => by
    rw [Nat.mul_zero, Nat.pow_zero] at h
    rw [leBytes, leNat]
    omega
  | n + 1, v, h => by
    have hdiv : v / 256 < 2 ^ (8 * n) := by
      rw [Nat.mul_add, Nat.pow_add] at h
      omega
    have hmod : (UInt8.ofNat v).toNat = v % 256 := UInt8.toNat_ofNat'
    rw [leBytes, leNat, leNat_leBytes hdiv, hmod]
    omega

theorem leBytes_ofNat {bs : List UInt8} {n w : ℕ} (hn : bs.length = n) (hw : w = 8 * n) :
    leBytes n (BitVec.ofNat w (leNat bs)).toNat = bs := by
  subst hn hw
  rw [BitVec.toNat_ofNat, Nat.mod_eq_of_lt (leNat_lt bs), leBytes_leNat]

/-! ## Scalars -/

section Scalar

variable {σ : Type} {DL : DataLayout} {ty : Ty} {raw : List UInt8}

/-- The type's value is decoded, with its size, to a constant of the type that is stored as the
bytes it was read from. -/
def Decodes (σ : Type) (DL : DataLayout) (ty : Ty) (raw : List UInt8) : Prop :=
  ∃ c : Constant σ, getConstantFromRaw DL ty raw = .ok (some c, DL.getTypeStoreSize ty)
    ∧ c.type = ty ∧ (startsWithNaN ty raw = false →
      c.storedBytes DL = (raw.take (DL.getTypeStoreSize ty)).map some)

theorem readRaw_ok {n : ℕ} (h : n ≤ raw.length) : readRaw n raw = .ok (raw.take n) := if_pos h

/-- Both ways of reading an integer have its bits. -/
theorem setWidth_loadInt {n : ℕ} (hn : n ≤ 8) (bs : List UInt8) :
    (loadInt n bs).setWidth (8 * n) = BitVec.ofNat (8 * n) (leNat bs) := by
  have hle : 8 * n ≤ 64 := by omega
  unfold loadInt
  split_ifs
  · exact BitVec.setWidth_ofNat_of_le hle _
  · exact TwosComplement.setWidth_signExtend hle _

theorem intFromRaw_eq {n : ℕ} (hn : n ≤ 8) (h : n ≤ raw.length) : intFromRaw (σ := σ) n raw
    = .ok (some (.int (8 * n) (BitVec.ofNat (8 * n) (leNat (raw.take n)))), n) := by
  simp only [intFromRaw, readRaw_ok h, bind, Except.bind, setWidth_loadInt hn]

theorem intFromRaw_decodes (σ : Type) (DL : DataLayout) {n : ℕ} (hn : n ≤ 8)
    (h : n ≤ raw.length) : ∃ c : Constant σ, intFromRaw n raw = .ok (some c, n)
      ∧ c.type = .int (8 * n) ∧ c.storedBytes DL = (raw.take n).map some := by
  have hlen : (raw.take n).length = n := List.length_take_of_le h
  refine ⟨.int (8 * n) (BitVec.ofNat _ (leNat (raw.take n))), intFromRaw_eq hn h, rfl, ?_⟩
  rw [Constant.storedBytes, show (8 * n + 7) / 8 = n by omega, leBytes_ofNat hlen rfl]

theorem storeSize_int (n : ℕ) : DL.getTypeStoreSize (.int (8 * n)) = n := by
  rw [DataLayout.getTypeStoreSize, DataLayout.getTypeSizeInBits, DataLayout.measure]
  omega

theorem storeSize_fp (k : FpKind) : DL.getTypeStoreSize (.fp k) = (k.bits + 7) / 8 := by
  rw [DataLayout.getTypeStoreSize, DataLayout.getTypeSizeInBits, DataLayout.measure]

theorem getConstantFromRaw_int {n : ℕ} (hn : 8 * n ∈ [8, 16, 32, 64]) :
    getConstantFromRaw (σ := σ) DL (.int (8 * n)) raw = intFromRaw n raw := by
  simp only [List.mem_cons, List.not_mem_nil, or_false] at hn
  obtain rfl | rfl | rfl | rfl : n = 1 ∨ n = 2 ∨ n = 4 ∨ n = 8 := by omega
  all_goals rfl

theorem decodes_float (h : 4 ≤ raw.length) : Decodes σ DL (.fp .float) raw := by
  have hsize : DL.getTypeStoreSize (.fp .float) = 4 := storeSize_fp _
  have hlen : (raw.take 4).length = 4 := List.length_take_of_le h
  refine ⟨.fp .float (.ofFloat (BitVec.ofNat 32 (leNat (raw.take 4)))), ?_, rfl, fun hnan => ?_⟩
  · simp only [getConstantFromRaw, readRaw_ok h, bind, Except.bind, hsize]
  · rw [Constant.storedBytes, if_neg (by simpa [startsWithNaN] using hnan),
      leBytes_ofNat hlen rfl, hsize]

theorem decodes_double (h : 8 ≤ raw.length) : Decodes σ DL (.fp .double) raw := by
  have hsize : DL.getTypeStoreSize (.fp .double) = 8 := storeSize_fp _
  have hlen : (raw.take 8).length = 8 := List.length_take_of_le h
  refine ⟨.fp .double (.ofDouble ⟨BitVec.ofNat 64 (leNat (raw.take 8))⟩), ?_, rfl, fun hnan => ?_⟩
  · simp only [getConstantFromRaw, readRaw_ok h, bind, Except.bind, hsize]
  · rw [Constant.storedBytes, if_neg (by simpa [startsWithNaN] using hnan),
      leBytes_ofNat hlen rfl, hsize]

/-- Pointers and vectors are the bytes of the buffer, cast to the type. -/
theorem decodes_bytes (hty : ty.isPointerTy = true ∨ bitCastable DL ty = true)
    (h : DL.getTypeStoreSize ty ≤ raw.length) : Decodes σ DL ty raw := by
  refine ⟨.bytes (raw.take (DL.getTypeStoreSize ty)) ty, ?_, rfl, fun _ => rfl⟩
  have hcast : (ty.isPointerTy || bitCastable DL ty) = true := by simpa using hty
  cases ty with
  | ptr _ | vector _ _ =>
    simp only [getConstantFromRaw, readRaw_ok h, bind, Except.bind, hcast, if_true]
  | _ => simp [Ty.isPointerTy, bitCastable] at hty

theorem decodes_of_isDecodable (hsize : DL.getTypeStoreSize ty ≤ raw.length)
    (hty : isDecodable DL ty = true) : Decodes σ DL ty raw := by
  cases ty with
  | int w =>
    have hw : w ∈ [8, 16, 32, 64] := by simpa only [isDecodable, decide_eq_true_eq] using hty
    obtain ⟨n, rfl⟩ : ∃ n, w = 8 * n := by
      simp only [List.mem_cons, List.not_mem_nil, or_false] at hw
      exact ⟨w / 8, by omega⟩
    rw [storeSize_int] at hsize
    have hn : n ≤ 8 := by
      simp only [List.mem_cons, List.not_mem_nil, or_false] at hw
      omega
    obtain ⟨c, hc, htype, hbytes⟩ := intFromRaw_decodes σ DL hn hsize
    refine ⟨c, ?_, htype, fun _ => ?_⟩
    · rw [getConstantFromRaw_int hw, storeSize_int, hc]
    · rw [storeSize_int, hbytes]
  | fp k =>
    have hk : k = .float ∨ k = .double := by simpa [isDecodable] using hty
    rw [storeSize_fp] at hsize
    rcases hk with rfl | rfl
    · exact decodes_float hsize
    · exact decodes_double hsize
  | ptr pointee => exact decodes_bytes (.inl rfl) hsize
  | vector n elem => exact decodes_bytes (.inr hty) hsize
  | _ => simp [isDecodable, bitCastable] at hty

theorem readRaw_eq_ok {n : ℕ} {bs : List UInt8} :
    readRaw n raw = .ok bs ↔ n ≤ raw.length ∧ raw.take n = bs := by
  unfold readRaw
  split_ifs with h <;> simp [h]

theorem isDecodable_of_castable (h : (ty.isPointerTy || bitCastable DL ty) = true) :
    isDecodable DL ty = true := by
  cases ty with
  | ptr pointee => rfl
  | int w | fp k => cases h
  | _ => exact h

/-- What is decoded is of a type there is a constant for, and lies in the buffer. -/
theorem isDecodable_of_eq_ok {c : Constant σ} {n : ℕ}
    (h : getConstantFromRaw DL ty raw = .ok (some c, n)) :
    isDecodable DL ty = true ∧ DL.getTypeStoreSize ty ≤ raw.length := by
  have hint {m : ℕ} (h : intFromRaw m raw = .ok (some c, n)) :
      DL.getTypeStoreSize (.int (8 * m)) ≤ raw.length := by
    rw [intFromRaw, Except.bind_eq_ok] at h
    obtain ⟨bs, hbs, -⟩ := h
    rw [storeSize_int]
    exact (readRaw_eq_ok.1 hbs).1
  unfold getConstantFromRaw at h
  split at h
  · exact ⟨rfl, hint h⟩
  · exact ⟨rfl, hint h⟩
  · exact ⟨rfl, hint h⟩
  · exact ⟨rfl, hint h⟩
  · simp at h
  · obtain ⟨bs, hbs, -⟩ := Except.bind_eq_ok.1 h
    rw [storeSize_fp]
    exact ⟨rfl, (readRaw_eq_ok.1 hbs).1⟩
  · obtain ⟨bs, hbs, -⟩ := Except.bind_eq_ok.1 h
    rw [storeSize_fp]
    exact ⟨rfl, (readRaw_eq_ok.1 hbs).1⟩
  · simp at h
  · next hint hfp hdouble hother =>
    obtain ⟨bs, hbs, h⟩ := Except.bind_eq_ok.1 h
    refine ⟨?_, (readRaw_eq_ok.1 hbs).1⟩
    split at h
    · next hcast => exact isDecodable_of_castable hcast
    · cases h

/-- A scalar is decoded exactly when it is an integer of 8, 16, 32 or 64 bits, a `float` or a
`double`, a pointer, or a vector of numbers that fills some whole bytes. -/
theorem getConstantFromRaw_decodes_iff (hsize : DL.getTypeStoreSize ty ≤ raw.length) :
    Decodes σ DL ty raw ↔ isDecodable DL ty = true :=
  ⟨fun ⟨_, hc, _, _⟩ => (isDecodable_of_eq_ok hc).1, decodes_of_isDecodable hsize⟩

theorem getConstantFromRaw_decodes_iff_i64 :
    Decodes Empty .x86_64 (.int 64) [1, 2, 3, 4, 5, 6, 7, 8]
      ↔ isDecodable .x86_64 (.int 64) = true :=
  getConstantFromRaw_decodes_iff (by decide)

/-- There is no constant for a `long double`. -/
theorem long_double_not_decodes :
    let one : List UInt8 := [0, 0, 0, 0, 0, 0, 0, 0x80, 0xFF, 0x3F]
    DataLayout.x86_64.getTypeStoreSize (.fp .x86_fp80) = one.length
      ∧ getConstantFromRaw (σ := Empty) .x86_64 (.fp .x86_fp80) one = .ok (none, 0)
      ∧ ¬ Decodes Empty .x86_64 (.fp .x86_fp80) one := by
  intro one
  have hnone : getConstantFromRaw (σ := Empty) .x86_64 (.fp .x86_fp80) one = .ok (none, 0) := rfl
  refine ⟨by decide, hnone, fun ⟨c, hc, _⟩ => ?_⟩
  rw [hnone] at hc
  cases hc

end Scalar

/-! ## The leaves of an initialiser -/

section Leaves

variable {σ : Type} {DL : DataLayout} {funcs : Ptr → Option (Constant σ)} {raw : List UInt8}

/-- The initialiser for a type at an offset of the buffer is a constant of the type. -/
def Initialises (DL : DataLayout) (funcs : Ptr → Option (Constant σ)) (raw : List UInt8)
    (l : ℕ × Ty) (c : Constant σ) : Prop :=
  storeStructFieldAsGlobal DL funcs l.2 (raw.drop l.1) = .ok (some c) ∧ c.type = l.2

theorem checkElements_eq_ok : ∀ {tys : List Ty} {os : List (Option (Constant σ))}
    {cs : List (Constant σ)}, checkElements tys os = .ok cs
      ↔ os = cs.map some ∧ cs.map (·.type) = tys
  | [], [], cs => by cases cs <;> simp [checkElements]
  | [], _ :: _, cs => by cases cs <;> simp [checkElements]
  | _ :: _, [], cs => by cases cs <;> simp [checkElements]
  | _ :: _, none :: _, cs => by cases cs <;> simp [checkElements]
  | ty :: tys, some c :: os, cs => by
    rw [checkElements, Except.bind_eq_ok]
    simp only [checkElements_eq_ok]
    constructor
    · rintro ⟨rest, ⟨rfl, hrest⟩, h⟩
      split_ifs at h with hc
      cases h
      simp [hc, hrest]
    · rintro ⟨hos, htys⟩
      cases cs with
      | nil => simp at hos
      | cons c' cs =>
        simp only [List.map_cons, List.cons.injEq, Option.some.injEq] at hos htys
        obtain ⟨rfl, rfl⟩ := hos
        exact ⟨cs, ⟨rfl, htys.2⟩, by rw [if_pos htys.1]⟩

theorem initialises_struct {packed : Bool} {fields : List Ty} {o : ℕ} {c : Constant σ} :
    Initialises DL funcs raw (o, .struct packed fields) c
      ↔ ∃ cs, c = .struct (.struct packed fields) cs ∧ cs.map (·.type) = fields
        ∧ fieldsAsGlobal DL funcs fields (DL.getElementOffsets packed fields) (raw.drop o)
          = .ok (cs.map some) := by
  unfold Initialises
  simp only [storeStructFieldAsGlobal, Except.bind_eq_ok, checkElements_eq_ok, Except.ok.injEq,
    Option.some.injEq]
  constructor
  · rintro ⟨⟨_, hfields, cs, ⟨rfl, htys⟩, rfl⟩, -⟩
    exact ⟨cs, rfl, htys, hfields⟩
  · rintro ⟨cs, rfl, htys, hfields⟩
    exact ⟨⟨_, hfields, cs, ⟨rfl, htys⟩, rfl⟩, rfl⟩

theorem initialises_array {n : ℕ} {elem : Ty} {o : ℕ} {c : Constant σ} :
    Initialises DL funcs raw (o, .array n elem) c
      ↔ ∃ cs, c = .array (.array n elem) cs ∧ List.Forall₂ (fun i c =>
        Initialises DL funcs raw (o + i * DL.getTypeAllocSize elem, elem) c) (List.range n) cs := by
  unfold Initialises
  simp only [storeStructFieldAsGlobal, Except.bind_eq_ok, checkElements_eq_ok, Except.ok.injEq,
    Option.some.injEq, List.drop_drop, Except.mapM_eq_ok]
  constructor
  · rintro ⟨⟨_, helems, cs, ⟨rfl, htys⟩, rfl⟩, -⟩
    refine ⟨cs, rfl, ?_⟩
    rw [List.forall₂_map_right_iff] at helems
    rw [List.eq_replicate_iff] at htys
    rw [List.forall₂_iff_get] at helems ⊢
    refine ⟨helems.1, fun i hi hi' => ⟨helems.2 i hi hi', ?_⟩⟩
    exact htys.2 _ (List.mem_map_of_mem (List.get_mem cs ⟨i, hi'⟩))
  · rintro ⟨cs, rfl, helems⟩
    have hlen : cs.length = n := by rw [← helems.length_eq, List.length_range]
    refine ⟨⟨_, ?_, cs, ⟨rfl, ?_⟩, rfl⟩, rfl⟩
    · rw [List.forall₂_map_right_iff]
      exact helems.imp fun _ _ h => h.1
    · rw [List.eq_replicate_iff]
      refine ⟨by rw [List.length_map, hlen], fun ty hty => ?_⟩
      obtain ⟨c, hc, rfl⟩ := List.mem_map.1 hty
      obtain ⟨i, hi, rfl⟩ := List.mem_iff_getElem.1 hc
      exact (helems.get (by rw [List.length_range]; omega) hi).2

/-! ### Each leaf is decoded at its offset -/

/-- The constant is the initialiser of the leaf, at the same offset. -/
def AtLeaf (DL : DataLayout) (funcs : Ptr → Option (Constant σ)) (raw : List UInt8)
    (l : ℕ × Ty) (l' : ℕ × Constant σ) : Prop :=
  l.1 = l'.1 ∧ Initialises DL funcs raw l l'.2

theorem Constant.leaves_scalar {c : Constant σ} (h : c.type.isAggregateType = false) (o : ℕ) :
    c.leaves DL o = [(o, c)] := by
  cases c with
  | struct ty cs | array ty cs =>
    cases ty <;> simp_all [Constant.leaves, Constant.type, Ty.isAggregateType]
  | _ => simp [Constant.leaves]

theorem elementLeaves_forall₂ {elem : Ty} {o size : ℕ}
    (h : ∀ (o : ℕ) (c : Constant σ), Initialises DL funcs raw (o, elem) c →
      List.Forall₂ (AtLeaf DL funcs raw) (DL.leaves elem o) (c.leaves DL o)) :
    ∀ {is : List ℕ} {cs : List (Constant σ)},
    List.Forall₂ (fun i c => Initialises DL funcs raw (o + i * size, elem) c) is cs →
    List.Forall₂ (AtLeaf DL funcs raw) (is.flatMap fun i => DL.leaves elem (o + i * size))
      (Constant.elementLeaves DL cs (is.map (· * size)) o)
  | [], _, .nil => by
    simp only [List.flatMap_nil, Constant.elementLeaves]
    exact .nil
  | i :: is, c :: cs, .cons hc hcs => by
    rw [List.flatMap_cons, List.map_cons, Constant.elementLeaves]
    exact List.rel_append (h _ c hc) (elementLeaves_forall₂ h hcs)

mutual

/-- The leaves of an initialiser are the initialisers of the leaves. -/
theorem Initialises.leaves : ∀ {ty : Ty} {o : ℕ} {c : Constant σ},
    Initialises DL funcs raw (o, ty) c →
    List.Forall₂ (AtLeaf DL funcs raw) (DL.leaves ty o) (c.leaves DL o)
  | .struct packed fields, o, c, h => by
    obtain ⟨cs, rfl, htys, hfields⟩ := initialises_struct.1 h
    rw [DataLayout.leaves, Constant.leaves]
    exact fieldLeaves_of_fieldsAsGlobal htys hfields
  | .array n elem, o, c, h => by
    obtain ⟨cs, rfl, helems⟩ := initialises_array.1 h
    rw [DataLayout.leaves, Constant.leaves]
    exact elementLeaves_forall₂ (fun _ _ h => h.leaves) helems
  | .void, o, c, h | .int _, o, c, h | .fp _, o, c, h | .ptr _, o, c, h
  | .vector _ _, o, c, h | .func _ _, o, c, h => by
    rw [DataLayout.leaves_scalar rfl, Constant.leaves_scalar (by rw [h.2]; rfl)]
    exact .cons ⟨rfl, h⟩ .nil

theorem fieldLeaves_of_fieldsAsGlobal : ∀ {tys : List Ty} {offsets : List ℕ} {o : ℕ}
    {cs : List (Constant σ)}, cs.map (·.type) = tys →
    fieldsAsGlobal DL funcs tys offsets (raw.drop o) = .ok (cs.map some) →
    List.Forall₂ (AtLeaf DL funcs raw) (DL.fieldLeaves tys offsets o)
      (Constant.elementLeaves DL cs offsets o)
  | ty :: tys, offset :: offsets, o, cs, htys, h => by
    simp only [fieldsAsGlobal, Except.bind_eq_ok, List.drop_drop, Except.ok.injEq] at h
    obtain ⟨o₁, h₁, os, hos, heq⟩ := h
    cases cs with
    | nil => cases heq
    | cons c cs =>
      simp only [List.map_cons, List.cons.injEq] at heq htys
      obtain ⟨rfl, rfl⟩ := heq
      rw [DataLayout.fieldLeaves, Constant.elementLeaves]
      exact List.rel_append (Initialises.leaves ⟨h₁, htys.1⟩)
        (fieldLeaves_of_fieldsAsGlobal htys.2 hos)
  | [], offsets, o, cs, htys, h => by
    rw [List.map_eq_nil_iff.1 htys]
    cases offsets <;> simp [DataLayout.fieldLeaves, Constant.elementLeaves]
  | ty :: tys, [], o, cs, htys, h => by
    cases cs with
    | nil => cases htys
    | cons c cs => simp [fieldsAsGlobal] at h

end

mutual

/-- If every leaf has an initialiser, the type does. -/
theorem exists_initialises : ∀ (ty : Ty) {o : ℕ},
    (∀ l ∈ DL.leaves ty o, ∃ c, Initialises DL funcs raw l c) →
    ∃ c, Initialises DL funcs raw (o, ty) c
  | .struct packed fields, o, h => by
    rw [DataLayout.leaves] at h
    obtain ⟨cs, htys, hfields⟩ :=
      exists_fieldsAsGlobal fields DataLayout.getElementOffsets_length.symm h
    exact ⟨_, initialises_struct.2 ⟨cs, rfl, htys, hfields⟩⟩
  | .array n elem, o, h => by
    rw [DataLayout.leaves] at h
    have helem : ∀ i ∈ List.range n,
        ∃ c, Initialises DL funcs raw (o + i * DL.getTypeAllocSize elem, elem) c :=
      fun i hi => exists_initialises elem fun l hl => h l (List.mem_flatMap.2 ⟨i, hi, hl⟩)
    obtain ⟨cs, hcs⟩ := List.exists_forall₂ helem
    exact ⟨_, initialises_array.2 ⟨cs, rfl, hcs⟩⟩
  | .void, o, h | .int _, o, h | .fp _, o, h | .ptr _, o, h
  | .vector _ _, o, h | .func _ _, o, h => by
    rw [DataLayout.leaves_scalar rfl] at h
    exact h _ (List.mem_singleton_self _)

theorem exists_fieldsAsGlobal : ∀ (tys : List Ty) {offsets : List ℕ} {o : ℕ},
    tys.length = offsets.length →
    (∀ l ∈ DL.fieldLeaves tys offsets o, ∃ c, Initialises DL funcs raw l c) →
    ∃ cs : List (Constant σ), cs.map (·.type) = tys
      ∧ fieldsAsGlobal DL funcs tys offsets (raw.drop o) = .ok (cs.map some)
  | [], offsets, o, _, _ => ⟨[], rfl, by cases offsets <;> rfl⟩
  | ty :: tys, offset :: offsets, o, hlen, h => by
    rw [DataLayout.fieldLeaves] at h
    obtain ⟨c, hc, htype⟩ := exists_initialises ty (o := o + offset)
      fun l hl => h l (List.mem_append_left _ hl)
    obtain ⟨cs, htys, hcs⟩ := exists_fieldsAsGlobal tys (by simpa using hlen)
      fun l hl => h l (List.mem_append_right _ hl)
    refine ⟨c :: cs, by rw [List.map_cons, htys, htype], ?_⟩
    simp only [fieldsAsGlobal, List.drop_drop, hc, hcs, bind, Except.bind, List.map_cons]

end

/-! ### The functions at the leaves -/

mutual

/-- The functions a struct points to are those its leaves point to. -/
theorem structPointers_leaves : ∀ {ty : Ty} {o : ℕ} {ps : List (Ptr × Ty)},
    structPointers DL ty (raw.drop o) = .ok ps →
    (∀ l ∈ DL.leaves ty o, ∃ qs, structPointers DL l.2 (raw.drop l.1) = .ok qs ∧ qs ⊆ ps)
      ∧ ∀ x ∈ ps, ∃ l ∈ DL.leaves ty o, ∃ qs, structPointers DL l.2 (raw.drop l.1) = .ok qs ∧ x ∈ qs
  | .struct packed fields, o, ps, h => by
    rw [structPointers] at h
    rw [DataLayout.leaves]
    exact fieldPointers_leaves DataLayout.getElementOffsets_length.symm h
  | .array n elem, o, ps, h => by
    rw [structPointers_array, Except.map_eq_ok] at h
    obtain ⟨pss, hpss, rfl⟩ := h
    simp only [Except.mapM_eq_ok, List.drop_drop, Nat.mul_comm (DL.getTypeAllocSize elem)] at hpss
    rw [DataLayout.leaves]
    refine ⟨fun l hl => ?_, fun x hx => ?_⟩
    · obtain ⟨i, hi, hl⟩ := List.mem_flatMap.1 hl
      obtain ⟨k, hk, rfl⟩ := List.mem_iff_getElem.1 hi
      have hk' : k < pss.length := hpss.length_eq ▸ hk
      obtain ⟨qs, hqs, hsub⟩ := (structPointers_leaves (hpss.get hk hk')).1 l hl
      exact ⟨qs, hqs, fun x hx => List.mem_flatten.2 ⟨_, List.getElem_mem hk', hsub hx⟩⟩
    · obtain ⟨qs, hqs, hx⟩ := List.mem_flatten.1 hx
      obtain ⟨k, hk, rfl⟩ := List.mem_iff_getElem.1 hqs
      have hk' : k < (List.range n).length := hpss.length_eq ▸ hk
      obtain ⟨l, hl, hleaf⟩ := (structPointers_leaves (hpss.get hk' hk)).2 x hx
      exact ⟨l, List.mem_flatMap.2 ⟨_, List.getElem_mem hk', hl⟩, hleaf⟩
  | .void, o, ps, h | .int _, o, ps, h | .fp _, o, ps, h | .ptr _, o, ps, h
  | .vector _ _, o, ps, h | .func _ _, o, ps, h => by
    rw [DataLayout.leaves_scalar rfl]
    refine ⟨fun l hl => ?_, fun x hx => ⟨_, List.mem_singleton_self _, ps, h, hx⟩⟩
    rw [List.mem_singleton.1 hl]
    exact ⟨ps, h, List.Subset.refl ps⟩

theorem fieldPointers_leaves : ∀ {tys : List Ty} {offsets : List ℕ} {o : ℕ}
    {ps : List (Ptr × Ty)}, tys.length = offsets.length →
    fieldPointers DL tys offsets (raw.drop o) = .ok ps →
    (∀ l ∈ DL.fieldLeaves tys offsets o,
      ∃ qs, structPointers DL l.2 (raw.drop l.1) = .ok qs ∧ qs ⊆ ps)
      ∧ ∀ x ∈ ps, ∃ l ∈ DL.fieldLeaves tys offsets o,
        ∃ qs, structPointers DL l.2 (raw.drop l.1) = .ok qs ∧ x ∈ qs
  | [], offsets, o, ps, _, h => by
    have hps : ps = [] := by
      cases offsets <;> simpa [fieldPointers, eq_comm] using h
    subst hps
    cases offsets <;> simp [DataLayout.fieldLeaves]
  | ty :: tys, offset :: offsets, o, ps, hlen, h => by
    simp only [fieldPointers, Except.bind_eq_ok, List.drop_drop, Except.ok.injEq] at h
    obtain ⟨ps₁, h₁, ps₂, h₂, rfl⟩ := h
    obtain ⟨hleaf₁, hmem₁⟩ := structPointers_leaves h₁
    obtain ⟨hleaf₂, hmem₂⟩ := fieldPointers_leaves (by simpa using hlen) h₂
    rw [DataLayout.fieldLeaves]
    refine ⟨fun l hl => ?_, fun x hx => ?_⟩
    · rcases List.mem_append.1 hl with hl | hl
      · obtain ⟨qs, hqs, hsub⟩ := hleaf₁ l hl
        exact ⟨qs, hqs, fun x hx => List.mem_append_left _ (hsub hx)⟩
      · obtain ⟨qs, hqs, hsub⟩ := hleaf₂ l hl
        exact ⟨qs, hqs, fun x hx => List.mem_append_right _ (hsub hx)⟩
    · rcases List.mem_append.1 hx with hx | hx
      · obtain ⟨l, hl, hleaf⟩ := hmem₁ x hx
        exact ⟨l, List.mem_append_left _ hl, hleaf⟩
      · obtain ⟨l, hl, hleaf⟩ := hmem₂ x hx
        exact ⟨l, List.mem_append_right _ hl, hleaf⟩

end

mutual

theorem exists_structPointers : ∀ (ty : Ty) {o : ℕ},
    (∀ l ∈ DL.leaves ty o, ∃ ps, structPointers DL l.2 (raw.drop l.1) = .ok ps) →
    ∃ ps, structPointers DL ty (raw.drop o) = .ok ps
  | .struct packed fields, o, h => by
    rw [DataLayout.leaves] at h
    rw [structPointers]
    exact exists_fieldPointers fields h
  | .array n elem, o, h => by
    rw [DataLayout.leaves] at h
    have helem : ∀ i ∈ List.range n,
        ∃ ps, structPointers DL elem ((raw.drop o).drop (DL.getTypeAllocSize elem * i))
          = .ok ps := by
      intro i hi
      rw [List.drop_drop, Nat.mul_comm]
      exact exists_structPointers elem fun l hl => h l (List.mem_flatMap.2 ⟨i, hi, hl⟩)
    obtain ⟨pss, hpss⟩ := List.exists_forall₂ helem
    rw [structPointers_array]
    exact ⟨_, Except.map_eq_ok.2 ⟨pss, Except.mapM_eq_ok.2 hpss, rfl⟩⟩
  | .void, o, h | .int _, o, h | .fp _, o, h | .ptr _, o, h
  | .vector _ _, o, h | .func _ _, o, h => by
    rw [DataLayout.leaves_scalar rfl] at h
    exact h _ (List.mem_singleton_self _)

theorem exists_fieldPointers : ∀ (tys : List Ty) {offsets : List ℕ} {o : ℕ},
    (∀ l ∈ DL.fieldLeaves tys offsets o, ∃ ps, structPointers DL l.2 (raw.drop l.1) = .ok ps) →
    ∃ ps, fieldPointers DL tys offsets (raw.drop o) = .ok ps
  | [], offsets, o, _ => ⟨[], by cases offsets <;> rfl⟩
  | _ :: _, [], o, _ => ⟨[], rfl⟩
  | ty :: tys, offset :: offsets, o, h => by
    rw [DataLayout.fieldLeaves] at h
    obtain ⟨ps, hps⟩ := exists_structPointers ty (o := o + offset)
      fun l hl => h l (List.mem_append_left _ hl)
    obtain ⟨qs, hqs⟩ := exists_fieldPointers tys
      fun l hl => h l (List.mem_append_right _ hl)
    refine ⟨ps ++ qs, ?_⟩
    simp only [fieldPointers, List.drop_drop, hps, hqs, bind, Except.bind]

end

/-! ### The bytes of the leaves -/

theorem bitCastable_of_isPlainScalar {n w : ℕ} (h : isPlainScalar (.vector n (.int w)) = true) :
    bitCastable DL (.vector n (.int w)) = true := by
  simp only [isPlainScalar, Bool.and_eq_true, decide_eq_true_eq, List.mem_cons, List.not_mem_nil,
    or_false] at h
  obtain ⟨hn, hw⟩ := h
  obtain ⟨k, hk, hw⟩ : ∃ k, 0 < k ∧ w = 8 * k := ⟨w / 8, by omega, by omega⟩
  have hbits : n * w = 8 * (n * k) := by rw [hw, Nat.mul_left_comm]
  have hpos : 0 < n * k := Nat.mul_pos hn hk
  simp only [bitCastable, DataLayout.getTypeStoreSize, DataLayout.getTypeSizeInBits,
    DataLayout.measure, hbits, Bool.and_eq_true, decide_eq_true_eq]
  omega

theorem isDecodable_of_isPlainScalar {ty : Ty} (h : isPlainScalar ty = true) :
    isDecodable DL ty = true := by
  cases ty with
  | int w => exact h
  | fp k => exact h
  | vector n elem =>
    cases elem with
    | int w => exact bitCastable_of_isPlainScalar h
    | _ => simp [isPlainScalar] at h
  | _ => simp [isPlainScalar] at h

theorem storeStructFieldAsGlobal_scalar {ty : Ty} (h : ty.isAggregateType = false)
    (hptr : ty.isPointerTy = false) (raw : List UInt8) :
    storeStructFieldAsGlobal DL funcs ty raw = (getConstantFromRaw DL ty raw).map (·.1) := by
  cases ty with
  | ptr _ => simp [Ty.isPointerTy] at hptr
  | array _ _ | struct _ _ => simp [Ty.isAggregateType] at h
  | _ =>
    simp only [storeStructFieldAsGlobal]
    cases getConstantFromRaw (σ := σ) DL _ raw <;> rfl

theorem scalar_of_isPlainScalar {ty : Ty} (h : isPlainScalar ty = true) :
    ty.isAggregateType = false ∧ ty.isPointerTy = false := by
  cases ty <;> simp_all [isPlainScalar, Ty.isAggregateType, Ty.isPointerTy]

/-- No function is linked in for a leaf that is decoded. -/
theorem structPointers_scalar {l : ℕ × Ty} (hptr : l.2.isPointerTy = false)
    (hty : isDecodable DL l.2 = true)
    (hsize : DL.getTypeStoreSize l.2 ≤ (raw.drop l.1).length) :
    structPointers DL l.2 (raw.drop l.1) = .ok [] := by
  obtain ⟨c, hc, -, -⟩ := decodes_of_isDecodable (σ := Empty) hsize hty
  obtain ⟨o, ty⟩ := l
  cases ty with
  | int _ | fp _ | vector _ _ => simp only [structPointers, hc, bind, Except.bind]
  | ptr _ => simp [Ty.isPointerTy] at hptr
  | _ => simp [isDecodable, bitCastable] at hty

/-- A plain leaf is initialised by a constant that is stored as the bytes at its offset. -/
theorem exists_initialises_plain (funcs : Ptr → Option (Constant σ)) {l : ℕ × Ty}
    (h : isPlainScalar l.2 = true) (hsize : DL.getTypeStoreSize l.2 ≤ (raw.drop l.1).length)
    (hnan : startsWithNaN l.2 (raw.drop l.1) = false) :
    ∃ c : Constant σ, Initialises DL funcs raw l c
      ∧ c.storedBytes DL = ((raw.drop l.1).take (DL.getTypeStoreSize l.2)).map some := by
  obtain ⟨c, hc, htype, hbytes⟩ :=
    decodes_of_isDecodable (σ := σ) hsize (isDecodable_of_isPlainScalar h)
  refine ⟨c, ⟨?_, htype⟩, hbytes hnan⟩
  obtain ⟨hagg, hptr⟩ := scalar_of_isPlainScalar h
  rw [storeStructFieldAsGlobal_scalar hagg hptr, hc]
  rfl

theorem Initialises.unique {l : ℕ × Ty} {c c' : Constant σ} (h : Initialises DL funcs raw l c)
    (h' : Initialises DL funcs raw l c') : c = c' := by
  have heq := h.1.symm.trans h'.1
  simpa using heq

/-- The stores that make up the memory of an initialiser are those of the buffer's bytes at the
leaves. -/
theorem stores_of_initialises {ty : Ty} {c : Constant σ}
    (h : Initialises DL funcs raw (0, ty) c)
    (hbytes : ∀ l ∈ DL.leaves ty 0, ∃ c : Constant σ, Initialises DL funcs raw l c
      ∧ c.storedBytes DL = ((raw.drop l.1).take (DL.getTypeStoreSize l.2)).map some) :
    (c.leaves DL 0).map (fun l => (l.1, l.2.storedBytes DL)) = (DL.leaves ty 0).map fun l =>
      (l.1, ((raw.drop l.1).take (DL.getTypeStoreSize l.2)).map some) := by
  have hleaves := h.leaves
  symm
  rw [← List.forall₂_eq_eq_eq, List.forall₂_map_left_iff, List.forall₂_map_right_iff]
  rw [List.forall₂_iff_get] at hleaves ⊢
  refine ⟨hleaves.1, fun i hi hi' => ?_⟩
  obtain ⟨ho, hinit⟩ := hleaves.2 i hi hi'
  obtain ⟨c', hinit', hc'⟩ := hbytes _ (List.get_mem _ ⟨i, hi⟩)
  rw [hinit.unique hinit', hc', ho]

/-- A leaf of the type lies in a buffer that has the type's size. -/
theorem storeSize_le_length_drop {ty : Ty} (hDL : DL.Positive)
    (hraw : DL.getTypeAllocSize ty ≤ raw.length) {l : ℕ × Ty} (hl : l ∈ DL.leaves ty 0) :
    DL.getTypeStoreSize l.2 ≤ (raw.drop l.1).length := by
  have := DataLayout.leaves_end_le hDL hl
  rw [List.length_drop]
  omega

/-- The memory of a struct that was captured by value holds its bytes: the initialiser has the
struct's type, and holds at each byte of each leaf what the buffer holds there. -/
theorem image_of_initialises {ty : Ty} {c : Constant σ} (hDL : DL.Positive)
    (hraw : DL.getTypeAllocSize ty ≤ raw.length) (h : Initialises DL funcs raw (0, ty) c)
    (hbytes : ∀ l ∈ DL.leaves ty 0, ∃ c : Constant σ, Initialises DL funcs raw l c
      ∧ c.storedBytes DL = ((raw.drop l.1).take (DL.getTypeStoreSize l.2)).map some) :
    (c.image DL).length = DL.getTypeAllocSize ty
      ∧ ∀ l ∈ DL.leaves ty 0, ∀ i < DL.getTypeStoreSize l.2,
        (c.image DL)[l.1 + i]? = some raw[l.1 + i]? := by
  have hlen (l : ℕ × Ty) (hl : l ∈ DL.leaves ty 0) :
      (((raw.drop l.1).take (DL.getTypeStoreSize l.2)).map some).length
        = DL.getTypeStoreSize l.2 := by
    rw [List.length_map]
    exact List.length_take_of_le (storeSize_le_length_drop hDL hraw hl)
  have hinside : ∀ l ∈ DL.leaves ty 0,
      l.1 + (((raw.drop l.1).take (DL.getTypeStoreSize l.2)).map some).length
        ≤ (List.replicate (DL.getTypeAllocSize ty) (none : Option UInt8)).length := by
    intro l hl
    rw [hlen l hl, List.length_replicate, ← Nat.zero_add (DL.getTypeAllocSize ty)]
    exact DataLayout.leaves_end_le hDL hl
  have hapart : (DL.leaves ty 0).Pairwise fun l l' =>
      l.1 + (((raw.drop l.1).take (DL.getTypeStoreSize l.2)).map some).length ≤ l'.1 := by
    refine (DataLayout.leaves_pairwise hDL ty 0).imp_of_mem fun {l l'} hl _ hbefore => ?_
    have := DataLayout.storeSize_le_allocSize (DataLayout.align_pos hDL l.2)
    rw [hlen l hl]
    exact Nat.le_trans (Nat.add_le_add_left this l.1) hbefore
  unfold Constant.image
  rw [stores_of_initialises h hbytes, h.2]
  refine ⟨?_, fun l hl i hi => ?_⟩
  · rw [Memory.length_storeAll (List.forall_mem_map.2 hinside), List.length_replicate]
  · have hlt : l.1 + i < raw.length := by
      have := DataLayout.leaves_end_le hDL hl
      omega
    rw [Memory.storeAll_map_getElem? hinside hapart hl (by rw [hlen l hl]; exact hi),
      List.getElem?_map, List.getElem?_take_of_lt hi, List.getElem?_drop,
      List.getElem?_eq_getElem hlt, Option.map_some]

end Leaves

section

variable {β δ : Type} [BitcodeFormat β δ] {P : Process β δ} {ty : Ty} {raw : List UInt8}

/-- A struct of plain scalars has an initialiser, which holds the bytes of the buffer. -/
theorem exists_image {DL : DataLayout} (hDL : DL.Positive)
    (hty : ∀ l ∈ DL.leaves ty 0, isPlainScalar l.2 = true)
    (hraw : DL.getTypeAllocSize ty ≤ raw.length)
    (hnan : ∀ l ∈ DL.leaves ty 0, startsWithNaN l.2 (raw.drop l.1) = false)
    (funcs : Ptr → Option LConstant) :
    ∃ c, Initialises DL funcs raw (0, ty) c ∧ (c.image DL).length = DL.getTypeAllocSize ty
      ∧ ∀ l ∈ DL.leaves ty 0, ∀ i < DL.getTypeStoreSize l.2,
        (c.image DL)[l.1 + i]? = some raw[l.1 + i]? := by
  have hbytes (l : ℕ × Ty) (hl : l ∈ DL.leaves ty 0) :=
    exists_initialises_plain funcs (hty l hl) (storeSize_le_length_drop hDL hraw hl) (hnan l hl)
  obtain ⟨c, hc⟩ := exists_initialises ty fun l hl => (hbytes l hl).imp fun _ h => h.1
  exact ⟨c, hc, image_of_initialises hDL hraw hc hbytes⟩

/-- Nothing is linked in for a struct of plain scalars. -/
theorem getGlobalStruct_of_initialises (hDL : P.layout.Positive)
    (hty : ∀ l ∈ P.layout.leaves ty 0, isPlainScalar l.2 = true)
    (hraw : P.layout.getTypeAllocSize ty ≤ raw.length) (S : LinkState δ)
    {funcs : Ptr → Option LConstant} {c : LConstant}
    (h : Initialises P.layout funcs raw (0, ty) c) :
    getGlobalStruct P.tracker P.layout S raw (.ptr ty) = .ok (S, .address ty c) := by
  have hleaf (l : ℕ × Ty) (hl : l ∈ P.layout.leaves ty 0) :=
    structPointers_scalar (scalar_of_isPlainScalar (hty l hl)).2
      (isDecodable_of_isPlainScalar (hty l hl)) (storeSize_le_length_drop hDL hraw hl)
  obtain ⟨ps, hps⟩ := exists_structPointers ty fun l hl => ⟨[], hleaf l hl⟩
  have hnil : ps = [] := by
    rw [List.eq_nil_iff_forall_not_mem]
    intro x hx
    obtain ⟨l, hl, qs, hqs, hxq⟩ := (structPointers_leaves hps).2 x hx
    rw [hleaf l hl] at hqs
    cases hqs
    cases hxq
  subst hnil
  have hprep : storeStructFieldPrepare P.tracker P.layout ty raw (S, []) = .ok (S, []) :=
    storeStructFieldPrepare_eq_ok.2 ⟨[], hps, rfl⟩
  have hfuncs : storeStructFieldAsGlobal P.layout (Funcs.lookup []) ty raw = .ok (some c) := by
    have hmap : (storeStructFieldAsGlobal P.layout funcs ty raw).map (Option.map (Constant.map id))
        = storeStructFieldAsGlobal P.layout (Funcs.lookup []) ty raw :=
      storeStructFieldAsGlobal_map ty raw hps (by simp)
    have hc : storeStructFieldAsGlobal P.layout funcs ty raw = .ok (some c) := h.1
    rw [← hmap, hc, Except.map, Option.map_some, Constant.map_id]
  have htype : c.type = ty := h.2
  simp only [getGlobalStruct, hprep, hfuncs, bind, Except.bind, htype, if_true]

/-- A struct of plain scalars is copied whole: no byte outside of the buffer is read, and the
initialiser has the struct's type and holds, at every byte that is not padding, the byte of the
buffer. -/
theorem getGlobalStruct_image (hDL : P.layout.Positive)
    (hty : ∀ l ∈ P.layout.leaves ty 0, isPlainScalar l.2 = true)
    (hraw : P.layout.getTypeAllocSize ty ≤ raw.length)
    (hnan : ∀ l ∈ P.layout.leaves ty 0, startsWithNaN l.2 (raw.drop l.1) = false)
    (S : LinkState δ) (funcs : Ptr → Option LConstant) :
    ∃ c, storeStructFieldAsGlobal P.layout funcs ty raw = .ok (some c)
      ∧ getGlobalStruct P.tracker P.layout S raw (.ptr ty) = .ok (S, .address ty c)
      ∧ c.type = ty ∧ (c.image P.layout).length = P.layout.getTypeAllocSize ty
      ∧ ∀ l ∈ P.layout.leaves ty 0, ∀ i < P.layout.getTypeStoreSize l.2,
        (c.image P.layout)[l.1 + i]? = some raw[l.1 + i]? := by
  obtain ⟨c, hc, hlen, himage⟩ := exists_image hDL hty hraw hnan funcs
  exact ⟨c, hc.1, getGlobalStruct_of_initialises hDL hty hraw S hc, hc.2, hlen, himage⟩

open Sample in
attribute [local instance] BitcodeFormat.self in
theorem getGlobalStruct_image_nested :
    let P : Process (LModule Unit) Unit := process []
    let S : LinkState Unit := ⟨.empty, []⟩
    let ty : Ty := .struct false [.int 8, .array 2 (.struct true [.int 8, .fp .float]), .int 64]
    let raw : List UInt8 :=
      [7, 0xAA, 1, 0, 0, 0x80, 0x3F, 2, 0, 0, 0, 0x40, 0xBB, 0xBB, 0xBB, 0xBB,
        1, 2, 3, 4, 5, 6, 7, 8]
    ∃ c, storeStructFieldAsGlobal P.layout (fun _ => none) ty raw = .ok (some c)
      ∧ getGlobalStruct P.tracker P.layout S raw (.ptr ty) = .ok (S, .address ty c)
      ∧ c.type = ty ∧ (c.image P.layout).length = 24
      ∧ ∀ l ∈ P.layout.leaves ty 0, ∀ i < P.layout.getTypeStoreSize l.2,
        (c.image P.layout)[l.1 + i]? = some raw[l.1 + i]? :=
  getGlobalStruct_image DataLayout.x86_64_positive (by decide) (by decide) (by decide) _ _

end

end EasyJit
