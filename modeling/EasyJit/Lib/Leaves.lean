import EasyJit.Lib.LLVM

/-!
# The scalars in a type

A type made of structs and arrays is laid out as the scalars it is made of, its leaves, each at
an offset. Where every alignment is positive, the leaves lie inside the type (`leaves_bounds`) and
follow one another without overlap (`leaves_pairwise`).
-/

namespace LLVM

def Ty.isAggregateType : Ty → Bool
  | .array _ _ | .struct _ _ => true
  | _ => false

namespace DataLayout

/-- The alignments are positive. -/
structure Positive (DL : DataLayout) : Prop where
  pointerSize : 0 < DL.pointerSize
  intAlign : ∀ w, 0 < DL.intAlign w
  fpAlign : ∀ k, 0 < DL.fpAlign k
  vectorAlign : ∀ w, 0 < DL.vectorAlign w

theorem x86_64_positive : x86_64.Positive where
  pointerSize := by decide
  intAlign w := by
    unfold x86_64
    dsimp only
    split_ifs <;> omega
  fpAlign k := by cases k <;> decide
  vectorAlign w := Nat.two_pow_pos _

variable (DL : DataLayout)

mutual

/-- The scalars of a type that is placed at an offset, with their offsets. -/
def leaves : Ty → ℕ → List (ℕ × Ty)
  | .struct packed fields, o => fieldLeaves fields (DL.getElementOffsets packed fields) o
  | .array n elem, o =>
    (List.range n).flatMap fun i => leaves elem (o + i * DL.getTypeAllocSize elem)
  | ty, o => [(o, ty)]

def fieldLeaves : List Ty → List ℕ → ℕ → List (ℕ × Ty)
  | ty :: tys, offset :: offsets, o => leaves ty (o + offset) ++ fieldLeaves tys offsets o
  | _, _, _ => []

end

variable {DL : DataLayout}

theorem leaves_scalar {ty : Ty} (h : ty.isAggregateType = false) (o : ℕ) :
    DL.leaves ty o = [(o, ty)] := by
  cases ty <;> simp_all [leaves, Ty.isAggregateType]

mutual

theorem scalar_of_mem_leaves : ∀ {ty : Ty} {o : ℕ}, ∀ l ∈ DL.leaves ty o,
    l.2.isAggregateType = false
  | .struct packed fields, o, l, hl => by
    rw [leaves] at hl
    exact scalar_of_mem_fieldLeaves l hl
  | .array n elem, o, l, hl => by
    rw [leaves, List.mem_flatMap] at hl
    obtain ⟨i, -, hl⟩ := hl
    exact scalar_of_mem_leaves l hl
  | .void, o, l, hl | .int _, o, l, hl | .fp _, o, l, hl | .ptr _, o, l, hl
  | .vector _ _, o, l, hl | .func _ _, o, l, hl => by
    rw [leaves_scalar rfl, List.mem_singleton] at hl
    rw [hl]
    rfl

theorem scalar_of_mem_fieldLeaves : ∀ {tys : List Ty} {offsets : List ℕ} {o : ℕ},
    ∀ l ∈ DL.fieldLeaves tys offsets o, l.2.isAggregateType = false
  | ty :: tys, offset :: offsets, o, l, hl => by
    rw [fieldLeaves, List.mem_append] at hl
    rcases hl with hl | hl
    · exact scalar_of_mem_leaves l hl
    · exact scalar_of_mem_fieldLeaves l hl
  | [], offsets, o, l, hl => by cases offsets <;> simp [fieldLeaves] at hl
  | _ :: _, [], o, l, hl => by simp [fieldLeaves] at hl

end

mutual

/-- A type that is placed further on has its leaves further on. -/
theorem leaves_add : ∀ (ty : Ty) (o k : ℕ),
    DL.leaves ty (o + k) = (DL.leaves ty o).map fun l => (l.1 + k, l.2)
  | .struct packed fields, o, k => by
    rw [leaves, leaves]
    exact fieldLeaves_add fields _ o k
  | .array n elem, o, k => by
    rw [leaves, leaves, List.map_flatMap]
    refine congrArg (fun f => (List.range n).flatMap f) (funext fun i => ?_)
    rw [Nat.add_right_comm, leaves_add elem]
  | .void, o, k | .int _, o, k | .fp _, o, k | .ptr _, o, k
  | .vector _ _, o, k | .func _ _, o, k => by
    rw [leaves_scalar rfl, leaves_scalar rfl]
    rfl

theorem fieldLeaves_add : ∀ (tys : List Ty) (offsets : List ℕ) (o k : ℕ),
    DL.fieldLeaves tys offsets (o + k)
      = (DL.fieldLeaves tys offsets o).map fun l => (l.1 + k, l.2)
  | [], offsets, o, k => by cases offsets <;> rfl
  | _ :: _, [], o, k => rfl
  | ty :: tys, offset :: offsets, o, k => by
    rw [fieldLeaves, fieldLeaves, List.map_append, Nat.add_right_comm, leaves_add ty,
      fieldLeaves_add tys]

end

theorem leaves_eq_map (ty : Ty) (o : ℕ) :
    DL.leaves ty o = (DL.leaves ty 0).map fun l => (l.1 + o, l.2) := by
  rw [← leaves_add, Nat.zero_add]

theorem le_alignTo {n align : ℕ} (h : 0 < align) : n ≤ alignTo n align := by
  unfold alignTo
  have h₁ := Nat.div_add_mod (n + align - 1) align
  have h₂ := Nat.mod_lt (n + align - 1) h
  rw [Nat.mul_comm] at h₁
  omega

theorem storeSize_le_allocSize {ty : Ty} (h : 0 < (DL.measure ty).2) :
    DL.getTypeStoreSize ty ≤ DL.getTypeAllocSize ty :=
  le_alignTo h

theorem measureFields_eq : ∀ tys : List Ty, DL.measureFields tys = tys.map DL.measure
  | [] => rfl
  | ty :: tys => by rw [measureFields, measureFields_eq tys, List.map_cons]

theorem placeFields_length (packed : Bool) : ∀ (ms : List (ℕ × ℕ)) (o : ℕ),
    (placeFields packed o ms).1.length = ms.length
  | [], _ => rfl
  | m :: ms, o => by
    rw [placeFields, List.length_cons, List.length_cons, placeFields_length packed ms]

theorem getElementOffsets_length {packed : Bool} {fields : List Ty} :
    (DL.getElementOffsets packed fields).length = fields.length := by
  rw [getElementOffsets, placeFields_length, measureFields_eq, List.length_map]

theorem le_foldl_max : ∀ {ms : List (ℕ × ℕ)} {a : ℕ}, a ≤ ms.foldl (fun a f => max a f.2) a
  | [], a => Nat.le_refl a
  | m :: _, a => Nat.le_trans (Nat.le_max_left a m.2) le_foldl_max

theorem structAlign_pos (packed : Bool) (ms : List (ℕ × ℕ)) : 0 < structAlign packed ms := by
  unfold structAlign
  split
  · exact Nat.one_pos
  · exact le_foldl_max

theorem align_pos (hDL : DL.Positive) : ∀ ty : Ty, 0 < (DL.measure ty).2
  | .void | .func _ _ => Nat.one_pos
  | .int w => hDL.intAlign w
  | .fp k => hDL.fpAlign k
  | .ptr _ => hDL.pointerSize
  | .vector _ _ => hDL.vectorAlign _
  | .array _ elem => by
    rw [measure]
    exact align_pos hDL elem
  | .struct packed fields => by
    rw [measure]
    exact structAlign_pos packed _

/-- As many bytes as in whole bytes. -/
theorem allocBytes_mul (n align : ℕ) : allocBytes (8 * n) align = alignTo n align := by
  rw [allocBytes, show (8 * n + 7) / 8 = n by omega]

theorem allocSize_array (hDL : DL.Positive) (n : ℕ) (elem : Ty) :
    n * DL.getTypeAllocSize elem ≤ DL.getTypeAllocSize (.array n elem) := by
  have hsize : DL.getTypeAllocSize (.array n elem)
      = alignTo (n * DL.getTypeAllocSize elem) (DL.measure elem).2 := by
    simp only [getTypeAllocSize, measure, allocBytes_mul]
  rw [hsize]
  exact le_alignTo (align_pos hDL elem)

theorem allocSize_struct (DL : DataLayout) (packed : Bool) (fields : List Ty) :
    (placeFields packed 0 (DL.measureFields fields)).2
      ≤ DL.getTypeAllocSize (.struct packed fields) := by
  have hpos := structAlign_pos packed (DL.measureFields fields)
  simp only [getTypeAllocSize, measure, allocBytes_mul]
  exact Nat.le_trans (le_alignTo hpos) (le_alignTo hpos)

/-- A field is placed where those before it end, or after that. -/
theorem le_placed (hDL : DL.Positive) (packed : Bool) (o : ℕ) (ty : Ty) :
    o ≤ if packed then o else alignTo o (DL.measure ty).2 := by
  split
  · exact Nat.le_refl o
  · exact le_alignTo (align_pos hDL ty)

theorem le_placeFields (hDL : DL.Positive) (packed : Bool) : ∀ (tys : List Ty) (o : ℕ),
    o ≤ (placeFields packed o (DL.measureFields tys)).2
  | [], o => Nat.le_refl o
  | ty :: tys, o => by
    simp only [measureFields, placeFields]
    have h₁ := le_placed hDL packed o ty
    have h₂ := le_placeFields hDL packed tys
      ((if packed then o else alignTo o (DL.measure ty).2) + DL.getTypeAllocSize ty)
    exact Nat.le_trans h₁ (Nat.le_trans (Nat.le_add_right _ _) h₂)

mutual

/-- The leaves of a type lie inside it. -/
theorem leaves_bounds (hDL : DL.Positive) : ∀ (ty : Ty) (o : ℕ), ∀ l ∈ DL.leaves ty o,
    o ≤ l.1 ∧ l.1 + DL.getTypeAllocSize l.2 ≤ o + DL.getTypeAllocSize ty
  | .struct packed fields, o, l, hl => by
    rw [leaves] at hl
    have h := fieldLeaves_bounds hDL packed fields 0 o l hl
    have hsize := allocSize_struct DL packed fields
    omega
  | .array n elem, o, l, hl => by
    rw [leaves, List.mem_flatMap] at hl
    obtain ⟨i, hi, hl⟩ := hl
    have h := leaves_bounds hDL elem _ l hl
    have hsize := allocSize_array hDL n elem
    have hstep : (i + 1) * DL.getTypeAllocSize elem ≤ n * DL.getTypeAllocSize elem :=
      Nat.mul_le_mul_right _ (List.mem_range.1 hi)
    rw [Nat.add_mul, Nat.one_mul] at hstep
    omega
  | .void, o, l, hl | .int _, o, l, hl | .fp _, o, l, hl | .ptr _, o, l, hl
  | .vector _ _, o, l, hl | .func _ _, o, l, hl => by
    rw [leaves_scalar rfl, List.mem_singleton] at hl
    rw [hl]
    exact ⟨Nat.le_refl _, Nat.le_refl _⟩

theorem fieldLeaves_bounds (hDL : DL.Positive) (packed : Bool) : ∀ (tys : List Ty) (start o : ℕ),
    ∀ l ∈ DL.fieldLeaves tys (placeFields packed start (DL.measureFields tys)).1 o,
      o + start ≤ l.1 ∧ l.1 + DL.getTypeAllocSize l.2
        ≤ o + (placeFields packed start (DL.measureFields tys)).2
  | [], _, _, l, hl => by simp [fieldLeaves] at hl
  | ty :: tys, start, o, l, hl => by
    simp only [measureFields, placeFields, fieldLeaves, List.mem_append] at hl ⊢
    have hplaced := le_placed hDL packed start ty
    set offset := if packed then start else alignTo start (DL.measure ty).2
    have hlast := le_placeFields hDL packed tys (offset + DL.getTypeAllocSize ty)
    rcases hl with hl | hl
    · have h := leaves_bounds hDL ty _ l hl
      refine ⟨by omega, Nat.le_trans h.2 ?_⟩
      rw [Nat.add_assoc]
      exact Nat.add_le_add_left hlast o
    · have h := fieldLeaves_bounds hDL packed tys _ o l hl
      exact ⟨by omega, h.2⟩

end

/-- What is stored of a leaf lies inside the type. -/
theorem leaves_end_le (hDL : DL.Positive) {ty : Ty} {o : ℕ} {l : ℕ × Ty} (hl : l ∈ DL.leaves ty o) :
    l.1 + DL.getTypeStoreSize l.2 ≤ o + DL.getTypeAllocSize ty :=
  Nat.le_trans (Nat.add_le_add_left (storeSize_le_allocSize (align_pos hDL l.2)) _)
    (leaves_bounds hDL ty o l hl).2

/-- The leaf `l` ends where `l'` starts, or before. -/
abbrev Before (DL : DataLayout) (l l' : ℕ × Ty) : Prop := l.1 + DL.getTypeAllocSize l.2 ≤ l'.1

mutual

/-- Each leaf ends before the ones after it start. -/
theorem leaves_pairwise (hDL : DL.Positive) : ∀ (ty : Ty) (o : ℕ),
    (DL.leaves ty o).Pairwise (Before DL)
  | .struct packed fields, o => by
    rw [leaves]
    exact fieldLeaves_pairwise hDL packed fields 0 o
  | .array n elem, o => by
    rw [leaves, List.pairwise_flatMap]
    refine ⟨fun i _ => leaves_pairwise hDL elem _,
      List.pairwise_lt_range.imp fun hij l hl l' hl' => ?_⟩
    rename_i i j
    have h := leaves_bounds hDL elem _ l hl
    have h' := leaves_bounds hDL elem _ l' hl'
    have hstep : (i + 1) * DL.getTypeAllocSize elem ≤ j * DL.getTypeAllocSize elem :=
      Nat.mul_le_mul_right _ hij
    rw [Nat.add_mul, Nat.one_mul] at hstep
    unfold Before
    omega
  | .void, o | .int _, o | .fp _, o | .ptr _, o | .vector _ _, o | .func _ _, o => by
    rw [leaves_scalar rfl]
    exact List.pairwise_singleton _ _

theorem fieldLeaves_pairwise (hDL : DL.Positive) (packed : Bool) : ∀ (tys : List Ty) (start o : ℕ),
    (DL.fieldLeaves tys (placeFields packed start (DL.measureFields tys)).1 o).Pairwise (Before DL)
  | [], _, _ => by
    rw [fieldLeaves]
    · exact .nil
    · simp
  | ty :: tys, start, o => by
    simp only [measureFields, placeFields, fieldLeaves]
    refine List.pairwise_append.2 ⟨leaves_pairwise hDL ty _,
      fieldLeaves_pairwise hDL packed tys _ o, fun l hl l' hl' => ?_⟩
    have h := leaves_bounds hDL ty _ l hl
    have h' := fieldLeaves_bounds hDL packed tys _ o l' hl'
    refine Nat.le_trans h.2 (Nat.le_trans ?_ h'.1)
    rw [Nat.add_assoc]
    exact Nat.le_refl _

end

end DataLayout

end LLVM
