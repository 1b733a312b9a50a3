import EasyJit.Proofs.Image
import EasyJit.StructAlloc

/-!
# Structs on the stack

The stores of a copy on the stack are those of the leaves, but the bytes of each are read from
where it would be if all were stored one right behind the other.
-/

namespace EasyJit

open LLVM Linker

section Walk

variable {β δ : Type} [BitcodeFormat β δ] {T : BitcodeTracker β} {DL : DataLayout}
  {raw : List UInt8}

/-- The store is to the leaf of a visit, and has the bytes of the buffer at the place. -/
def StoresAt {σ : Type} (DL : DataLayout) (raw : List UInt8) (x : ℕ × DataLayout.Visit)
    (s : FieldStore σ) : Prop :=
  s.gep = x.2.indices
    ∧ s.value.storedBytes DL = ((raw.drop x.1).take (DL.getTypeStoreSize x.2.ty)).map some

/-- The type is stored from a place in the buffer: what is emitted are stores to its leaves. -/
def Walked (T : BitcodeTracker β) (DL : DataLayout) (raw : List UInt8) (ty : Ty) (p : ℕ)
    (gep : List ℕ) (a : ℤ) (o : ℕ) (E : Emitter δ) : Prop :=
  ∃ new, storeStructField T DL ty (raw.drop p) gep E
      = .ok ({ E with stores := E.stores ++ new }, DL.packedSize ty)
    ∧ List.Forall₂ (StoresAt DL raw) (DL.packVisits p (DL.visits ty gep a o)) new

theorem walked_int {w : ℕ} (hty : isCapturedInt (.int w) = true) {p : ℕ}
    (hraw : p + DL.packedSize (.int w) ≤ raw.length) (gep : List ℕ) (a : ℤ) (o : ℕ)
    (E : Emitter δ) : Walked T DL raw (.int w) p gep a o E := by
  rw [DataLayout.packedSize_scalar rfl] at hraw
  have hsize : DL.getTypeStoreSize (.int w) ≤ (raw.drop p).length := by
    rw [List.length_drop]
    omega
  have hpacked : DL.packedSize (.int w) = DL.getTypeStoreSize (.int w) :=
    DataLayout.packedSize_scalar rfl
  obtain ⟨c, hc, htype, hbytes⟩ := decodes_of_isDecodable (σ := Sym String) hsize hty
  refine ⟨[⟨gep, c⟩], ?_, ?_⟩
  · simp only [storeStructField, storeConstantFromRaw, hc, Emitter.createStore, htype, if_true,
      bind, Except.bind, hpacked]
  · rw [DataLayout.visits_scalar rfl]
    exact .cons ⟨rfl, hbytes rfl⟩ .nil

/-- The loop over the elements of an array. -/
theorem walked_array {elem : Ty} {n p : ℕ} {gep : List ℕ} {a : ℤ} {o : ℕ} (E : Emitter δ)
    (h : ∀ i < n, ∀ E : Emitter δ, Walked T DL raw elem (p + i * DL.packedSize elem) (gep ++ [i])
      (a + (BitVec.ofNat 32 i).toInt * DL.getTypeAllocSize elem)
      (o + i * DL.getTypeAllocSize elem) E) :
    Walked T DL raw (.array n elem) p gep a o E := by
  unfold Walked
  rw [storeStructField, DataLayout.visits, DataLayout.packedSize_array]
  induction n with
  | zero => exact ⟨[], by simp [pure, Except.pure], .nil⟩
  | succ n ih =>
    obtain ⟨new, hnew, hstores⟩ := ih fun i hi => h i (Nat.lt_succ_of_lt hi)
    obtain ⟨last, hlast, hstores'⟩ := h n (Nat.lt_succ_self n) { E with stores := E.stores ++ new }
    refine ⟨new ++ last, ?_, ?_⟩
    · rw [List.range_succ, List.foldlM_append, hnew]
      simp only [List.foldlM_cons, List.foldlM_nil, bind, Except.bind, pure, Except.pure,
        List.drop_drop, hlast, List.append_assoc, Nat.add_mul, Nat.one_mul]
    · rw [List.range_succ, List.flatMap_append, List.flatMap_singleton]
      unfold DataLayout.packVisits
      rw [DataLayout.pack_append, DataLayout.sum_elementVisits]
      exact List.rel_append hstores hstores'

mutual

/-- A type of integers is stored leaf by leaf, each read right behind the one before it. -/
theorem walked : ∀ (ty : Ty) (p : ℕ) (gep : List ℕ) (a : ℤ) (o : ℕ) (E : Emitter δ),
    (∀ l ∈ DL.leaves ty o, isCapturedInt l.2 = true) → p + DL.packedSize ty ≤ raw.length →
    Walked T DL raw ty p gep a o E
  | .struct packed fields, p, gep, a, o, E, hty, hraw => by
    rw [DataLayout.leaves] at hty
    rw [DataLayout.packedSize_struct] at hraw
    obtain ⟨new, hnew, hstores⟩ := walked_fields fields _ 0 p 0 gep a o E
      DataLayout.getElementOffsets_length.symm hty (by omega)
    unfold Walked
    rw [storeStructField, DataLayout.visits, DataLayout.packedSize_struct]
    rw [Nat.zero_add] at hnew
    exact ⟨new, hnew, hstores⟩
  | .array n elem, p, gep, a, o, E, hty, hraw => by
    rw [DataLayout.leaves] at hty
    rw [DataLayout.packedSize_array] at hraw
    refine walked_array E fun i hi E => walked elem _ _ _ _ E
      (fun l hl => hty l (List.mem_flatMap.2 ⟨i, List.mem_range.2 hi, hl⟩)) ?_
    have hstep : (i + 1) * DL.packedSize elem ≤ n * DL.packedSize elem :=
      Nat.mul_le_mul_right _ hi
    rw [Nat.add_mul, Nat.one_mul] at hstep
    omega
  | .int w, p, gep, a, o, E, hty, hraw => by
    rw [DataLayout.leaves_scalar rfl] at hty
    exact walked_int (hty _ (List.mem_singleton_self _)) hraw gep a o E
  | .void, p, gep, a, o, E, hty, _ | .fp _, p, gep, a, o, E, hty, _
  | .ptr _, p, gep, a, o, E, hty, _ | .vector _ _, p, gep, a, o, E, hty, _
  | .func _ _, p, gep, a, o, E, hty, _ => by
    rw [DataLayout.leaves_scalar rfl] at hty
    have := hty _ (List.mem_singleton_self _)
    simp [isCapturedInt] at this

theorem walked_fields : ∀ (tys : List Ty) (offsets : List ℕ) (field p r : ℕ) (gep : List ℕ)
    (a : ℤ) (o : ℕ) (E : Emitter δ), tys.length = offsets.length →
    (∀ l ∈ DL.fieldLeaves tys offsets o, isCapturedInt l.2 = true) →
    p + r + (tys.map DL.packedSize).sum ≤ raw.length →
    ∃ new, storeFields T DL tys field (raw.drop p) gep (E, r)
        = .ok ({ E with stores := E.stores ++ new }, r + (tys.map DL.packedSize).sum)
      ∧ List.Forall₂ (StoresAt DL raw)
        (DL.packVisits (p + r) (DL.fieldVisits tys offsets field gep a o)) new
  | [], offsets, field, p, r, gep, a, o, E, _, _, _ =>
    ⟨[], by simp [storeFields], by cases offsets <;> exact .nil⟩
  | ty :: tys, offset :: offsets, field, p, r, gep, a, o, E, hlen, hty, hraw => by
    rw [DataLayout.fieldLeaves] at hty
    rw [List.map_cons, List.sum_cons] at hraw
    obtain ⟨new, hnew, hstores⟩ := walked ty (p + r) (gep ++ [field]) (a + offset) (o + offset) E
      (fun l hl => hty l (List.mem_append_left _ hl)) (by omega)
    obtain ⟨rest, hrest, hstores'⟩ := walked_fields tys offsets (field + 1) p
      (r + DL.packedSize ty) gep a o { E with stores := E.stores ++ new } (by simpa using hlen)
      (fun l hl => hty l (List.mem_append_right _ hl)) (by omega)
    refine ⟨new ++ rest, ?_, ?_⟩
    · simp only [storeFields, List.drop_drop, hnew, bind, Except.bind, hrest, List.append_assoc,
        List.map_cons, List.sum_cons, Nat.add_assoc]
    · rw [DataLayout.fieldVisits]
      unfold DataLayout.packVisits
      rw [DataLayout.pack_append, DataLayout.sum_visits, Nat.add_assoc]
      exact List.rel_append hstores hstores'

end

end Walk

/-! ## The memory of the copy -/

section Image

variable {σ : Type} {DL : DataLayout} {raw : List UInt8} {ty : Ty}

/-- What the walk visits, each leaf with where its bytes are read from. -/
def walkOf (DL : DataLayout) (ty : Ty) : List (ℕ × DataLayout.Visit) :=
  DL.packVisits 0 (DL.visits ty [0] 0 0)

/-- The bytes that are stored to a leaf. -/
def readBytes (DL : DataLayout) (raw : List UInt8) (x : ℕ × DataLayout.Visit) :
    List (Option UInt8) :=
  ((raw.drop x.1).take (DL.getTypeStoreSize x.2.ty)).map some

theorem visit_of_mem_walkOf {x : ℕ × DataLayout.Visit} (hx : x ∈ walkOf DL ty) :
    x.2 ∈ DL.visits ty [0] 0 0 :=
  DataLayout.mem_of_mem_pack hx

theorem leaf_of_mem_walkOf {x : ℕ × DataLayout.Visit} (hx : x ∈ walkOf DL ty) :
    (x.2.offset, x.2.ty) ∈ DL.leaves ty 0 := by
  rw [← DataLayout.visits_leaves ty [0] 0 0]
  exact List.mem_map_of_mem (visit_of_mem_walkOf hx)

theorem exists_mem_walkOf {v : DataLayout.Visit} (hv : v ∈ DL.visits ty [0] 0 0) :
    ∃ x ∈ walkOf DL ty, x.2 = v := by
  rw [← DataLayout.map_snd_pack (fun v => DL.getTypeStoreSize v.ty)
    (DL.visits ty [0] 0 0) 0] at hv
  exact List.mem_map.1 hv

theorem exists_leaf_mem_walkOf {l : ℕ × Ty} (hl : l ∈ DL.leaves ty 0) :
    ∃ x ∈ walkOf DL ty, (x.2.offset, x.2.ty) = l := by
  rw [← DataLayout.visits_leaves ty [0] 0 0] at hl
  obtain ⟨v, hv, rfl⟩ := List.mem_map.1 hl
  obtain ⟨x, hx, rfl⟩ := exists_mem_walkOf hv
  exact ⟨x, hx, rfl⟩

theorem walkOf_map : (walkOf DL ty).map (fun x => (x.1, x.2.offset, x.2.ty))
    = DataLayout.pack (fun l => DL.getTypeStoreSize l.2) 0 (DL.leaves ty 0) := by
  rw [← DataLayout.visits_leaves ty [0] 0 0, DataLayout.pack_map]
  rfl

/-- Where a leaf of the type is, and where it is read from. -/
theorem walkOf_bounds (hDL : DL.Positive) {x : ℕ × DataLayout.Visit} (hx : x ∈ walkOf DL ty) :
    x.1 ≤ x.2.offset ∧ x.2.address ≤ x.2.offset
      ∧ x.2.offset + DL.getTypeStoreSize x.2.ty ≤ DL.getTypeAllocSize ty := by
  have hend : x.2.offset + DL.getTypeStoreSize x.2.ty ≤ 0 + DL.getTypeAllocSize ty :=
    DataLayout.leaves_end_le hDL (leaf_of_mem_walkOf hx)
  refine ⟨?_, DataLayout.visits_le ty [0] (by simp) _ (visit_of_mem_walkOf hx), by omega⟩
  have hmem : (x.1, x.2.offset, x.2.ty) ∈ (walkOf DL ty).map fun x => (x.1, x.2.offset, x.2.ty) :=
    List.mem_map_of_mem hx
  rw [walkOf_map] at hmem
  exact DataLayout.pack_le Prod.fst (DataLayout.leaves_apart hDL ty 0)
    (fun _ _ => Nat.zero_le _) _ hmem

theorem walkOf_end_le {x : ℕ × DataLayout.Visit} (hx : x ∈ walkOf DL ty) :
    x.1 + DL.getTypeStoreSize x.2.ty ≤ DL.packedSize ty := by
  have h := DataLayout.pack_end_le x hx
  rwa [DataLayout.sum_visits, Nat.zero_add] at h

theorem walkOf_apart (hDL : DL.Positive) (ty : Ty) :
    (walkOf DL ty).Pairwise fun x y =>
      x.2.offset + DL.getTypeStoreSize x.2.ty ≤ y.2.offset := by
  have hapart := DataLayout.leaves_apart hDL ty 0
  rw [← DataLayout.visits_leaves ty [0] 0 0, List.pairwise_map,
    ← DataLayout.map_snd_pack (fun v => DL.getTypeStoreSize v.ty) (DL.visits ty [0] 0 0) 0,
    List.pairwise_map] at hapart
  exact hapart

theorem length_readBytes (hraw : DL.packedSize ty ≤ raw.length) {x : ℕ × DataLayout.Visit}
    (hx : x ∈ walkOf DL ty) : (readBytes DL raw x).length = DL.getTypeStoreSize x.2.ty := by
  have := walkOf_end_le hx
  rw [readBytes, List.length_map, List.length_take, List.length_drop]
  omega

theorem gepAddress_of_mem_walkOf {x : ℕ × DataLayout.Visit} (hx : x ∈ walkOf DL ty) :
    DL.gepAddress ty x.2.indices = some x.2.address := by
  obtain ⟨js, hjs, hoffset⟩ := DataLayout.visits_indices ty [0] 0 0 _ (visit_of_mem_walkOf hx)
  rw [hjs, List.singleton_append, DataLayout.gepAddress, hoffset]
  simp

/-- The store to a leaf is done when the indices lead to somewhere in the object. -/
theorem write_eq_ok {x : ℕ × DataLayout.Visit} {s : FieldStore σ} {w : ℕ × List (Option UInt8)}
    (hx : x ∈ walkOf DL ty) (hs : StoresAt DL raw x s) : s.write DL ty = .ok w
      ↔ (0 ≤ x.2.address
          ∧ x.2.address + (readBytes DL raw x).length ≤ DL.getTypeAllocSize ty)
        ∧ (x.2.address.toNat, readBytes DL raw x) = w := by
  have haddress : DL.gepAddress ty s.gep = some x.2.address := by
    rw [hs.1, gepAddress_of_mem_walkOf hx]
  have hbytes : s.value.storedBytes DL = readBytes DL raw x := hs.2
  simp only [FieldStore.write, haddress, hbytes]
  split_ifs with h <;> simp [h]

theorem mapM_write_eq_ok {xs : List (ℕ × DataLayout.Visit)} {stores : List (FieldStore σ)}
    (hxs : ∀ x ∈ xs, x ∈ walkOf DL ty) (hstores : List.Forall₂ (StoresAt DL raw) xs stores) :
    ∀ writes, stores.mapM (fun s => s.write DL ty) = .ok writes
      ↔ (∀ x ∈ xs, 0 ≤ x.2.address
          ∧ x.2.address + (readBytes DL raw x).length ≤ DL.getTypeAllocSize ty)
        ∧ xs.map (fun x => (x.2.address.toNat, readBytes DL raw x)) = writes := by
  induction hstores with
  | nil => simp [pure, Except.pure]
  | @cons x s xs stores hs hstores ih =>
    intro writes
    simp only [List.mapM_cons, Except.bind_eq_ok, write_eq_ok (hxs x List.mem_cons_self) hs,
      ih fun x hx => hxs x (List.mem_cons_of_mem _ hx), pure, Except.pure, Except.ok.injEq,
      List.forall_mem_cons, List.map_cons]
    constructor
    · rintro ⟨w, ⟨hx, rfl⟩, ws, ⟨hxs, rfl⟩, rfl⟩
      exact ⟨⟨hx, hxs⟩, rfl⟩
    · rintro ⟨⟨hx, hxs⟩, rfl⟩
      exact ⟨_, ⟨hx, rfl⟩, _, ⟨hxs, rfl⟩, rfl⟩

/-- The object has the stores of a walk over its leaves. -/
structure WalkedAlloc (DL : DataLayout) (raw : List UInt8) (ty : Ty) (A : AllocaInst σ) :
    Prop where
  allocatedType : A.allocatedType = ty
  stores : List.Forall₂ (StoresAt DL raw) (walkOf DL ty) A.stores

theorem WalkedAlloc.image_eq_ok {A : AllocaInst σ} {mem : List (Option UInt8)}
    (h : WalkedAlloc DL raw ty A) : A.image DL = .ok mem ↔ (∀ x ∈ walkOf DL ty, 0 ≤ x.2.address
        ∧ x.2.address + (readBytes DL raw x).length ≤ DL.getTypeAllocSize ty)
      ∧ Memory.storeAll (List.replicate (DL.getTypeAllocSize ty) none)
        ((walkOf DL ty).map fun x => (x.2.address.toNat, readBytes DL raw x)) = mem := by
  obtain ⟨ty', stores⟩ := A
  obtain ⟨rfl, hstores⟩ := h
  simp only [AllocaInst.image, Except.bind_eq_ok, mapM_write_eq_ok (fun _ hx => hx) hstores,
    Except.ok.injEq]
  constructor
  · rintro ⟨_, ⟨hinside, rfl⟩, hmem⟩
    exact ⟨hinside, hmem⟩
  · rintro ⟨hinside, hmem⟩
    exact ⟨_, ⟨hinside, rfl⟩, hmem⟩

theorem readBytes_getElem? (hraw : DL.packedSize ty ≤ raw.length) {x : ℕ × DataLayout.Visit}
    (hx : x ∈ walkOf DL ty) {i : ℕ} (hi : i < DL.getTypeStoreSize x.2.ty) :
    (readBytes DL raw x)[i]? = some raw[x.1 + i]? := by
  have hbounds := walkOf_end_le hx
  have hlt : x.1 + i < raw.length := by omega
  rw [readBytes, List.getElem?_map, List.getElem?_take_of_lt hi, List.getElem?_drop,
    List.getElem?_eq_getElem hlt, Option.map_some]

/-- Where arrays are short, each leaf of the object holds the bytes it was read from. -/
theorem WalkedAlloc.image_of_shortArrays {A : AllocaInst σ} (h : WalkedAlloc DL raw ty A)
    (hDL : DL.Positive) (hraw : DL.packedSize ty ≤ raw.length)
    (hshort : DL.shortArrays ty = true) : ∃ mem, A.image DL = .ok mem
      ∧ ∀ x ∈ walkOf DL ty, ∀ i < DL.getTypeStoreSize x.2.ty,
        mem[x.2.offset + i]? = some raw[x.1 + i]? := by
  have haddress (x : ℕ × DataLayout.Visit) (hx : x ∈ walkOf DL ty) : x.2.address = x.2.offset :=
    DataLayout.visits_of_shortArrays ty [0] (by simp) hshort _ (visit_of_mem_walkOf hx)
  have hlen (x : ℕ × DataLayout.Visit) (hx : x ∈ walkOf DL ty) := length_readBytes hraw hx
  have hinside : ∀ x ∈ walkOf DL ty, x.2.address.toNat + (readBytes DL raw x).length
      ≤ (List.replicate (DL.getTypeAllocSize ty) (none : Option UInt8)).length := by
    intro x hx
    have := walkOf_bounds hDL hx
    rw [haddress x hx, hlen x hx, List.length_replicate]
    omega
  have hapart : (walkOf DL ty).Pairwise fun x y =>
      x.2.address.toNat + (readBytes DL raw x).length ≤ y.2.address.toNat := by
    refine (walkOf_apart hDL ty).imp_of_mem fun {x y} hx hy hbefore => ?_
    rw [haddress x hx, haddress y hy, hlen x hx]
    exact hbefore
  refine ⟨_, h.image_eq_ok.2 ⟨fun x hx => ?_, rfl⟩, fun x hx i hi => ?_⟩
  · have := walkOf_bounds hDL hx
    rw [haddress x hx, hlen x hx]
    omega
  · have hget := Memory.storeAll_map_getElem?
      (f := fun x => (x.2.address.toNat, readBytes DL raw x)) hinside hapart hx
      (by rw [hlen x hx]; exact hi)
    dsimp only at hget
    rw [haddress x hx, Int.toNat_natCast] at hget
    rw [hget, readBytes_getElem? hraw hx hi]

/-- Where each leaf of the object holds some bytes, arrays are short. -/
theorem WalkedAlloc.shortArrays_of_image {A : AllocaInst σ} {mem : List (Option UInt8)}
    (h : WalkedAlloc DL raw ty A) (hDL : DL.Positive) (hraw : DL.packedSize ty ≤ raw.length)
    (hpos : ∀ l ∈ DL.leaves ty 0, 0 < DL.getTypeStoreSize l.2)
    (hmem : A.image DL = .ok mem) (hfull : ∀ x ∈ walkOf DL ty,
      ∀ i < DL.getTypeStoreSize x.2.ty, mem[x.2.offset + i]? ≠ some none) :
    DL.shortArrays ty = true := by
  obtain ⟨hinside, rfl⟩ := h.image_eq_ok.1 hmem
  have hsize (x : ℕ × DataLayout.Visit) (hx : x ∈ walkOf DL ty) :
      0 < DL.getTypeStoreSize x.2.ty := hpos _ (leaf_of_mem_walkOf hx)
  have hlen (x : ℕ × DataLayout.Visit) (hx : x ∈ walkOf DL ty) := length_readBytes hraw hx
  have hplaces : ∀ y ∈ (walkOf DL ty).map
      (fun x => (x.2.address.toNat, x.2.offset, readBytes DL raw x)), y.1 = y.2.1 := by
    refine Memory.inPlace_of_changed (m := List.replicate (DL.getTypeAllocSize ty) none)
      ?_ ?_ ?_ ?_ ?_
    · rw [List.forall_mem_map]
      intro x hx
      have := hinside x hx
      rw [List.length_replicate]
      dsimp only
      omega
    · rw [List.forall_mem_map]
      intro x hx
      have := walkOf_bounds hDL hx
      dsimp only
      omega
    · rw [List.forall_mem_map]
      intro x hx
      rw [← List.length_pos_iff, hlen x hx]
      exact hsize x hx
    · rw [List.pairwise_map]
      refine (walkOf_apart hDL ty).imp_of_mem fun {x y} hx _ hbefore => ?_
      rw [hlen x hx]
      exact hbefore
    · rw [List.forall_mem_map]
      intro x hx
      have := walkOf_bounds hDL hx
      have := hsize x hx
      dsimp only
      rw [hlen x hx, List.map_map, List.getElem?_replicate_of_lt (by omega)]
      exact hfull x hx _ (by omega)
  refine (DataLayout.shortArrays_of_visits hDL ty [0] (a := 0) hpos (by simp) fun v hv => ?_).1
  obtain ⟨x, hx, rfl⟩ := exists_mem_walkOf hv
  have hplace : x.2.address.toNat = x.2.offset := hplaces _ (List.mem_map_of_mem hx)
  have := (hinside x hx).1
  omega

end Image

/-! ## The two copies -/

section Copies

variable {β δ : Type} [BitcodeFormat β δ] {P : Process β δ} {ty : Ty} {raw : List UInt8}

/-- A struct of integers is copied to the stack by a walk over its leaves. -/
theorem getStructAlloc_walked
    (hty : ∀ l ∈ P.layout.leaves ty 0, isCapturedInt l.2 = true)
    (hraw : P.layout.packedSize ty ≤ raw.length) (S : LinkState δ) :
    ∃ A, getStructAlloc P.tracker P.layout S raw (.ptr ty) = .ok (S, A)
      ∧ WalkedAlloc P.layout raw ty A := by
  have hwalk : Walked P.tracker P.layout raw ty 0 [0] 0 0 { S } :=
    walked ty 0 [0] 0 0 { S } hty (by omega)
  obtain ⟨new, hnew, hstores⟩ := hwalk
  rw [List.drop_zero] at hnew
  refine ⟨⟨ty, new⟩, ?_, rfl, hstores⟩
  simp only [getStructAlloc, hnew, bind, Except.bind, List.nil_append]

theorem isPlainScalar_of_isCapturedInt (h : isCapturedInt ty = true) :
    isPlainScalar ty = true ∧ (∀ raw, startsWithNaN ty raw = false)
      ∧ ∀ DL : DataLayout, 0 < DL.getTypeStoreSize ty := by
  cases ty with
  | int w =>
    refine ⟨h, fun _ => rfl, fun DL => ?_⟩
    simp only [isCapturedInt, List.mem_cons, List.not_mem_nil, or_false, decide_eq_true_eq] at h
    rw [DataLayout.getTypeStoreSize, DataLayout.getTypeSizeInBits, DataLayout.measure]
    omega
  | _ => simp [isCapturedInt] at h

/-- The bytes that the walk reads for each leaf are those at its offset. -/
def ReadsLeaves (DL : DataLayout) (ty : Ty) (raw : List UInt8) : Prop :=
  ∀ x ∈ DataLayout.pack (fun l => DL.getTypeStoreSize l.2) 0 (DL.leaves ty 0),
    (raw.drop x.1).take (DL.getTypeStoreSize x.2.2)
      = (raw.drop x.2.1).take (DL.getTypeStoreSize x.2.2)

instance (DL : DataLayout) (ty : Ty) (raw : List UInt8) : Decidable (ReadsLeaves DL ty raw) :=
  inferInstanceAs (Decidable (∀ _ ∈ _, _))

theorem readsLeaves_iff {DL : DataLayout} : ReadsLeaves DL ty raw ↔ ∀ x ∈ walkOf DL ty,
    ∀ i < DL.getTypeStoreSize x.2.ty, raw[x.1 + i]? = raw[x.2.offset + i]? := by
  rw [ReadsLeaves, ← walkOf_map, List.forall_mem_map]
  refine forall₂_congr fun x _ => ⟨fun h i hi => ?_, fun h => List.ext_getElem? fun i => ?_⟩
  · have := congrArg (fun bs => bs[i]?) h
    simpa only [List.getElem?_take_of_lt hi, List.getElem?_drop] using this
  · simp only [List.getElem?_take, List.getElem?_drop]
    split_ifs with hi
    · exact h i hi
    · rfl

/-- The copies agree on a buffer exactly when the walk reads every leaf as it is. -/
theorem sameLeaves_iff (hDL : P.layout.Positive)
    (hty : ∀ l ∈ P.layout.leaves ty 0, isCapturedInt l.2 = true)
    (hraw : P.layout.getTypeAllocSize ty ≤ raw.length) (S : LinkState δ) :
    SameLeaves P S ty raw
      ↔ P.layout.shortArrays ty = true ∧ ReadsLeaves P.layout ty raw := by
  have hplain (l : ℕ × Ty) (hl : l ∈ P.layout.leaves ty 0) :=
    isPlainScalar_of_isCapturedInt (hty l hl)
  have hpacked : P.layout.packedSize ty ≤ raw.length :=
    Nat.le_trans (DataLayout.packedSize_le_allocSize hDL ty) hraw
  obtain ⟨A, hA, hwalked⟩ := getStructAlloc_walked hty hpacked S
  obtain ⟨c, hc, -, himage⟩ := exists_image hDL (fun l hl => (hplain l hl).1) hraw
    (fun l hl => (hplain l hl).2.1 _) fun _ => none
  have hglobal := getGlobalStruct_of_initialises hDL (fun l hl => (hplain l hl).1) hraw S hc
  have hleaf (x : ℕ × DataLayout.Visit) (hx : x ∈ walkOf P.layout ty) :=
    himage _ (leaf_of_mem_walkOf hx)
  rw [readsLeaves_iff]
  constructor
  · rintro ⟨S₁, A', mem, S₂, c', hA', hmem, hc', hsame⟩
    rw [hA] at hA'
    cases hA'
    rw [hglobal] at hc'
    cases hc'
    have hbytes (x : ℕ × DataLayout.Visit) (hx : x ∈ walkOf P.layout ty) (i : ℕ)
        (hi : i < P.layout.getTypeStoreSize x.2.ty) :
        mem[x.2.offset + i]? = some raw[x.2.offset + i]? :=
      (hsame _ (leaf_of_mem_walkOf hx) i hi).trans (hleaf x hx i hi)
    have hshort := hwalked.shortArrays_of_image hDL hpacked (fun l hl => (hplain l hl).2.2 _) hmem
      fun x hx i hi => by
        have := walkOf_bounds hDL hx
        rw [hbytes x hx i hi, List.getElem?_eq_getElem (by omega)]
        simp
    obtain ⟨mem', hmem', hread⟩ := hwalked.image_of_shortArrays hDL hpacked hshort
    rw [hmem] at hmem'
    cases hmem'
    refine ⟨hshort, fun x hx i hi => ?_⟩
    exact Option.some.inj ((hread x hx i hi).symm.trans (hbytes x hx i hi))
  · rintro ⟨hshort, hreads⟩
    obtain ⟨mem, hmem, hread⟩ := hwalked.image_of_shortArrays hDL hpacked hshort
    refine ⟨S, A, mem, S, c, hA, hmem, hglobal, fun l hl i hi => ?_⟩
    obtain ⟨x, hx, rfl⟩ := exists_leaf_mem_walkOf hl
    rw [hread x hx i hi, hreads x hx i hi, hleaf x hx i hi]

/-- The walk reads the leaves of every buffer as they are exactly when no padding lies before
one. -/
theorem forall_readsLeaves_iff {DL : DataLayout} (hDL : DL.Positive)
    (hpos : ∀ l ∈ DL.leaves ty 0, 0 < DL.getTypeStoreSize l.2) :
    (∀ raw : List UInt8, raw.length = DL.getTypeAllocSize ty → ReadsLeaves DL ty raw)
      ↔ ∀ x ∈ DataLayout.pack (fun l => DL.getTypeStoreSize l.2) 0 (DL.leaves ty 0),
        x.1 = x.2.1 := by
  constructor
  · intro h
    rw [← walkOf_map, List.forall_mem_map]
    intro x hx
    by_contra hother
    have hbounds := walkOf_bounds hDL hx
    have hsize := hpos _ (leaf_of_mem_walkOf hx)
    dsimp only at hsize hother
    -- the last byte of the leaf is one, and all others are zero
    set last := x.2.offset + (DL.getTypeStoreSize x.2.ty - 1)
    have hread := readsLeaves_iff.1
      (h ((List.replicate (DL.getTypeAllocSize ty) 0).set last 1) (by simp)) x hx
      (DL.getTypeStoreSize x.2.ty - 1) (by omega)
    rw [List.getElem?_set_ne (by omega), List.getElem?_set_self (by simp; omega),
      List.getElem?_replicate_of_lt (by omega)] at hread
    exact absurd hread (by decide)
  · intro h raw _ x hx
    rw [h x hx]

/-- The copies of a struct of integers agree on its bytes when every leaf has the same bytes as
there are where it would be without padding, and no array is too long for an index; and so on all
bytes exactly when no padding lies before a leaf. -/
theorem getStructAlloc_sameLeaves_iff (hDL : P.layout.Positive)
    (hty : ∀ l ∈ P.layout.leaves ty 0, isCapturedInt l.2 = true) (S : LinkState δ) :
    (∀ raw : List UInt8, raw.length = P.layout.getTypeAllocSize ty →
      (SameLeaves P S ty raw ↔ P.layout.shortArrays ty = true ∧ ReadsLeaves P.layout ty raw))
    ∧ ((∀ raw : List UInt8, raw.length = P.layout.getTypeAllocSize ty → SameLeaves P S ty raw)
      ↔ P.layout.shortArrays ty = true
        ∧ ∀ x ∈ DataLayout.pack (fun l => P.layout.getTypeStoreSize l.2) 0
            (P.layout.leaves ty 0), x.1 = x.2.1) := by
  have hone (raw : List UInt8) (hraw : raw.length = P.layout.getTypeAllocSize ty) :
      SameLeaves P S ty raw
        ↔ P.layout.shortArrays ty = true ∧ ReadsLeaves P.layout ty raw :=
    sameLeaves_iff hDL hty (Nat.le_of_eq hraw.symm) S
  have hpos (l : ℕ × Ty) (hl : l ∈ P.layout.leaves ty 0) :=
    (isPlainScalar_of_isCapturedInt (hty l hl)).2.2 P.layout
  refine ⟨hone, ?_⟩
  rw [← forall_readsLeaves_iff hDL hpos]
  constructor
  · intro h
    have hzero := List.length_replicate (n := P.layout.getTypeAllocSize ty) (a := (0 : UInt8))
    exact ⟨((hone _ hzero).1 (h _ hzero)).1, fun raw hraw => ((hone raw hraw).1 (h raw hraw)).2⟩
  · exact fun h raw hraw => (hone raw hraw).2 ⟨h.1, h.2 raw hraw⟩

end Copies

section Samples

open Sample

attribute [local instance] BitcodeFormat.self

/-- `struct { int8_t a; int8_t b[2][2]; struct { int8_t c; } d; int16_t e; }`. -/
def denseTy : Ty :=
  .struct false [.int 8, .array 2 (.array 2 (.int 8)), .struct false [.int 8], .int 16]

theorem getStructAlloc_sameLeaves_dense :
    let P : Process (LModule Unit) Unit := process []
    let S : LinkState Unit := ⟨.empty, []⟩
    SameLeaves P S denseTy [1, 2, 3, 4, 5, 6, 7, 8]
      ∧ ∀ raw : List UInt8, raw.length = 8 → SameLeaves P S denseTy raw := by
  intro P S
  have hsize : P.layout.getTypeAllocSize denseTy = 8 := by decide
  have hty : ∀ l ∈ P.layout.leaves denseTy 0, isCapturedInt l.2 = true := by decide
  obtain ⟨hone, hall⟩ := getStructAlloc_sameLeaves_iff DataLayout.x86_64_positive hty S
  rw [hsize] at hone hall
  exact ⟨(hone _ rfl).2 ⟨by decide, by decide⟩, hall.2 ⟨by decide, by decide⟩⟩

/-- The `int32_t` of `struct { int8_t a; int32_t b; }` is read right behind the other field. -/
theorem padded_not_sameLeaves :
    let P : Process (LModule Unit) Unit := process []
    let S : LinkState Unit := ⟨.empty, []⟩
    let ty : Ty := .struct false [.int 8, .int 32]
    let raw : List UInt8 := [1, 0, 0, 0, 2, 3, 4, 5]
    raw.length = P.layout.getTypeAllocSize ty
      ∧ (getStructAlloc P.tracker P.layout S raw (.ptr ty) >>= fun r => r.2.image P.layout)
        = .ok [some 1, none, none, none, some 0, some 0, some 0, some 2]
      ∧ (∀ l ∈ P.layout.leaves ty 0, isCapturedInt l.2 = true) ∧ ¬ SameLeaves P S ty raw := by
  intro P S ty raw
  have hty : ∀ l ∈ P.layout.leaves ty 0, isCapturedInt l.2 = true := by decide
  refine ⟨by decide, by decide, hty, fun h => ?_⟩
  have hreads := ((sameLeaves_iff DataLayout.x86_64_positive hty (by decide) S).1 h).2
  have := hreads (1, 4, .int 32) (by decide)
  exact absurd this (by decide)

end Samples

end EasyJit
