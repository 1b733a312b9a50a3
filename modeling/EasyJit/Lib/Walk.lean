import EasyJit.Lib.Leaves
import Mathlib.Algebra.BigOperators.Group.List.Basic
import Mathlib.Algebra.Order.BigOperators.Group.List
import Mathlib.Algebra.Order.Group.Nat
import Mathlib.Algebra.Order.Ring.Int
import Mathlib.Data.BitVec

/-!
# A walk over the scalars of a type

A walk visits the leaves of a type one after the other. The indices of 32 bits that lead to a leaf
reach it when no array has too many elements for them (`visits_exact`), and else something before
it. A buffer that holds the leaves one right behind the other has none of them further on than the
type has it (`pack_le`).
-/

namespace LLVM.DataLayout

variable (DL : DataLayout)

/-- What the indices add to the address of an object of the type: an index of an array is of 32
bits, and signed. -/
def gepOffset : Ty → List ℕ → Option ℤ
  | _, [] => some 0
  | .struct packed fields, i :: is => do
    let offset ← (DL.getElementOffsets packed fields)[i]?
    let ty ← fields[i]?
    some (offset + (← gepOffset ty is))
  | .array _ elem, i :: is => do
    some ((BitVec.ofNat 32 i).toInt * DL.getTypeAllocSize elem + (← gepOffset elem is))
  | _, _ :: _ => none

/-- Where the indices of a `getelementptr` lead to, from an object of the type: the first one is
that of an array of such objects. -/
def gepAddress (ty : Ty) : List ℕ → Option ℤ
  | [] => none
  | i :: is =>
    (DL.gepOffset ty is).map ((BitVec.ofNat 32 i).toInt * DL.getTypeAllocSize ty + ·)

/-- A leaf, with the indices of the walk, and the address they lead to. -/
structure Visit where
  indices : List ℕ
  address : ℤ
  offset : ℕ
  ty : Ty
  deriving Repr

mutual

/-- The leaves of a type at an offset, which the walk has come to by indices that lead to an
address. -/
def visits : Ty → List ℕ → ℤ → ℕ → List Visit
  | .struct packed fields, is, a, o =>
    fieldVisits fields (DL.getElementOffsets packed fields) 0 is a o
  | .array n elem, is, a, o => (List.range n).flatMap fun i =>
    visits elem (is ++ [i]) (a + (BitVec.ofNat 32 i).toInt * DL.getTypeAllocSize elem)
      (o + i * DL.getTypeAllocSize elem)
  | ty, is, a, o => [⟨is, a, o, ty⟩]

def fieldVisits : List Ty → List ℕ → ℕ → List ℕ → ℤ → ℕ → List Visit
  | ty :: tys, offset :: offsets, field, is, a, o =>
    visits ty (is ++ [field]) (a + offset) (o + offset)
      ++ fieldVisits tys offsets (field + 1) is a o
  | _, _, _, _, _, _ => []

end

mutual

/-- No array that holds a scalar has more elements than a signed index of 32 bits can count. -/
def shortArrays : Ty → Bool
  | .struct _ fields => shortArraysFields fields
  | .array n elem => n = 0 || shortArrays elem && (n ≤ 2 ^ 31 || DL.leaves elem 0 = [])
  | _ => true

def shortArraysFields : List Ty → Bool
  | [] => true
  | ty :: tys => shortArrays ty && shortArraysFields tys

end

mutual

def noArrays : Ty → Bool
  | .struct _ fields => noArraysFields fields
  | .array _ _ => false
  | _ => true

def noArraysFields : List Ty → Bool
  | [] => true
  | ty :: tys => noArrays ty && noArraysFields tys

end

/-- Each element, with where it is when all are stored one right behind the other. -/
def pack {α : Type*} (size : α → ℕ) : ℕ → List α → List (ℕ × α)
  | _, [] => []
  | p, x :: xs => (p, x) :: pack size (p + size x) xs

/-- What the leaves of a type take up one right behind the other. -/
def packedSize (ty : Ty) : ℕ := ((DL.leaves ty 0).map fun l => DL.getTypeStoreSize l.2).sum

/-- What is visited, each leaf with where it is in a buffer that holds them one right behind the
other. -/
abbrev packVisits (p : ℕ) (vs : List Visit) : List (ℕ × Visit) :=
  pack (fun v => DL.getTypeStoreSize v.ty) p vs

variable {DL : DataLayout}

/-! ## The leaves -/

theorem visits_scalar {ty : Ty} (h : ty.isAggregateType = false) (is : List ℕ) (a : ℤ) (o : ℕ) :
    DL.visits ty is a o = [⟨is, a, o, ty⟩] := by
  cases ty <;> simp_all [visits, Ty.isAggregateType]

mutual

/-- A walk visits the leaves, in their order. -/
theorem visits_leaves : ∀ (ty : Ty) (is : List ℕ) (a : ℤ) (o : ℕ),
    (DL.visits ty is a o).map (fun v => (v.offset, v.ty)) = DL.leaves ty o
  | .struct packed fields, is, a, o => by
    rw [visits, leaves]
    exact fieldVisits_leaves fields _ 0 is a o
  | .array n elem, is, a, o => by
    rw [visits, leaves, List.map_flatMap]
    exact congrArg (fun f => (List.range n).flatMap f) (funext fun i => visits_leaves elem _ _ _)
  | .void, is, a, o | .int _, is, a, o | .fp _, is, a, o | .ptr _, is, a, o
  | .vector _ _, is, a, o | .func _ _, is, a, o => by
    rw [visits_scalar rfl, leaves_scalar rfl]
    rfl

theorem fieldVisits_leaves : ∀ (tys : List Ty) (offsets : List ℕ) (field : ℕ) (is : List ℕ)
    (a : ℤ) (o : ℕ), (DL.fieldVisits tys offsets field is a o).map (fun v => (v.offset, v.ty))
      = DL.fieldLeaves tys offsets o
  | [], offsets, field, is, a, o => by cases offsets <;> rfl
  | _ :: _, [], field, is, a, o => rfl
  | ty :: tys, offset :: offsets, field, is, a, o => by
    rw [fieldVisits, fieldLeaves, List.map_append, visits_leaves, fieldVisits_leaves]

end

/-! ## The indices -/

mutual

/-- The indices lead from the address of the type to that of the visit. -/
theorem visits_indices : ∀ (ty : Ty) (is : List ℕ) (a : ℤ) (o : ℕ), ∀ v ∈ DL.visits ty is a o,
    ∃ js, v.indices = is ++ js ∧ DL.gepOffset ty js = some (v.address - a)
  | .struct packed fields, is, a, o, v, hv => by
    rw [visits] at hv
    exact fieldVisits_indices fields _ 0 is a o (by simp) (by simp) v hv
  | .array n elem, is, a, o, v, hv => by
    rw [visits, List.mem_flatMap] at hv
    obtain ⟨i, -, hv⟩ := hv
    obtain ⟨js, his, hjs⟩ := visits_indices elem _ _ _ v hv
    refine ⟨i :: js, by rw [his, List.append_assoc, List.singleton_append], ?_⟩
    simp only [gepOffset, hjs, Option.bind_eq_bind, Option.bind_some, Option.some.injEq]
    omega
  | .void, is, a, o, v, hv | .int _, is, a, o, v, hv | .fp _, is, a, o, v, hv
  | .ptr _, is, a, o, v, hv | .vector _ _, is, a, o, v, hv | .func _ _, is, a, o, v, hv => by
    rw [visits_scalar rfl, List.mem_singleton] at hv
    subst hv
    exact ⟨[], by simp, by simp [gepOffset]⟩

theorem fieldVisits_indices {packed : Bool} {fields : List Ty} : ∀ (tys : List Ty)
    (offsets : List ℕ) (field : ℕ) (is : List ℕ) (a : ℤ) (o : ℕ),
    (∀ i : ℕ, tys[i]? = fields[field + i]?) →
    (∀ i : ℕ, offsets[i]? = (DL.getElementOffsets packed fields)[field + i]?) →
    ∀ v ∈ DL.fieldVisits tys offsets field is a o, ∃ js, v.indices = is ++ js
      ∧ DL.gepOffset (.struct packed fields) js = some (v.address - a)
  | [], offsets, field, is, a, o, _, _, v, hv => by simp [fieldVisits] at hv
  | _ :: _, [], field, is, a, o, _, _, v, hv => by simp [fieldVisits] at hv
  | ty :: tys, offset :: offsets, field, is, a, o, htys, hoffsets, v, hv => by
    rw [fieldVisits, List.mem_append] at hv
    rcases hv with hv | hv
    · obtain ⟨js, his, hjs⟩ := visits_indices ty _ _ _ v hv
      have hty : fields[field]? = some ty := (htys 0).symm
      have hoffset : (DL.getElementOffsets packed fields)[field]? = some offset :=
        (hoffsets 0).symm
      refine ⟨field :: js, by rw [his, List.append_assoc, List.singleton_append], ?_⟩
      simp only [gepOffset, hty, hoffset, hjs, Option.bind_eq_bind, Option.bind_some,
        Option.some.injEq]
      omega
    · refine fieldVisits_indices tys offsets (field + 1) is a o (fun i => ?_) (fun i => ?_) v hv
      · rw [Nat.add_assoc, Nat.add_comm 1 i, ← htys (i + 1), List.getElem?_cons_succ]
      · rw [Nat.add_assoc, Nat.add_comm 1 i, ← hoffsets (i + 1), List.getElem?_cons_succ]

end

theorem toInt_ofNat_le (i : ℕ) : (BitVec.ofNat 32 i).toInt ≤ i := by
  rw [BitVec.toInt_eq_toNat_cond, BitVec.toNat_ofNat]
  split_ifs <;> omega

theorem toInt_ofNat_eq_iff {i : ℕ} : (BitVec.ofNat 32 i).toInt = i ↔ i < 2 ^ 31 := by
  rw [BitVec.toInt_eq_toNat_cond, BitVec.toNat_ofNat]
  split_ifs <;> omega

mutual

/-- The indices of a leaf lead to it, or to something before it. -/
theorem visits_le : ∀ (ty : Ty) (is : List ℕ) {a : ℤ} {o : ℕ}, a ≤ o →
    ∀ v ∈ DL.visits ty is a o, v.address ≤ v.offset
  | .struct packed fields, is, a, o, h, v, hv => by
    rw [visits] at hv
    exact fieldVisits_le fields _ 0 is h v hv
  | .array n elem, is, a, o, h, v, hv => by
    rw [visits, List.mem_flatMap] at hv
    obtain ⟨i, -, hv⟩ := hv
    refine visits_le elem _ ?_ v hv
    push_cast
    exact add_le_add h
      (mul_le_mul_of_nonneg_right (toInt_ofNat_le i) (Int.natCast_nonneg _))
  | .void, is, a, o, h, v, hv | .int _, is, a, o, h, v, hv | .fp _, is, a, o, h, v, hv
  | .ptr _, is, a, o, h, v, hv | .vector _ _, is, a, o, h, v, hv
  | .func _ _, is, a, o, h, v, hv => by
    rw [visits_scalar rfl, List.mem_singleton] at hv
    rw [hv]
    exact h

theorem fieldVisits_le : ∀ (tys : List Ty) (offsets : List ℕ) (field : ℕ) (is : List ℕ) {a : ℤ}
    {o : ℕ}, a ≤ o → ∀ v ∈ DL.fieldVisits tys offsets field is a o, v.address ≤ v.offset
  | [], offsets, field, is, a, o, _, v, hv => by simp [fieldVisits] at hv
  | _ :: _, [], field, is, a, o, _, v, hv => by simp [fieldVisits] at hv
  | ty :: tys, offset :: offsets, field, is, a, o, h, v, hv => by
    rw [fieldVisits, List.mem_append] at hv
    rcases hv with hv | hv
    · exact visits_le ty _ (by push_cast; omega) v hv
    · exact fieldVisits_le tys offsets (field + 1) is h v hv

end

mutual

/-- Where arrays are short, the indices lead to the leaves. -/
theorem visits_of_shortArrays : ∀ (ty : Ty) (is : List ℕ) {a : ℤ} {o : ℕ}, a = o →
    DL.shortArrays ty = true → ∀ v ∈ DL.visits ty is a o, v.address = v.offset
  | .struct packed fields, is, a, o, h, hshort, v, hv => by
    rw [visits] at hv
    rw [shortArrays] at hshort
    exact fieldVisits_of_shortArrays fields _ 0 is h hshort v hv
  | .array n elem, is, a, o, h, hshort, v, hv => by
    rw [visits, List.mem_flatMap] at hv
    obtain ⟨i, hi, hv⟩ := hv
    have hi := List.mem_range.1 hi
    simp only [shortArrays, Bool.or_eq_true, Bool.and_eq_true, decide_eq_true_eq] at hshort
    obtain ⟨helem, hn | hnil⟩ := hshort.resolve_left (by omega)
    · refine visits_of_shortArrays elem _ ?_ helem v hv
      rw [toInt_ofNat_eq_iff.2 (by omega), h]
      push_cast
      rfl
    · -- there is no leaf to visit
      have hmem := List.mem_map_of_mem (f := fun v => (v.offset, v.ty)) hv
      rw [visits_leaves, leaves_eq_map, hnil] at hmem
      cases hmem
  | .void, is, a, o, h, _, v, hv | .int _, is, a, o, h, _, v, hv | .fp _, is, a, o, h, _, v, hv
  | .ptr _, is, a, o, h, _, v, hv | .vector _ _, is, a, o, h, _, v, hv
  | .func _ _, is, a, o, h, _, v, hv => by
    rw [visits_scalar rfl, List.mem_singleton] at hv
    rw [hv]
    exact h

theorem fieldVisits_of_shortArrays : ∀ (tys : List Ty) (offsets : List ℕ) (field : ℕ)
    (is : List ℕ) {a : ℤ} {o : ℕ}, a = o → DL.shortArraysFields tys = true →
    ∀ v ∈ DL.fieldVisits tys offsets field is a o, v.address = v.offset
  | [], offsets, field, is, a, o, _, _, v, hv => by simp [fieldVisits] at hv
  | _ :: _, [], field, is, a, o, _, _, v, hv => by simp [fieldVisits] at hv
  | ty :: tys, offset :: offsets, field, is, a, o, h, hshort, v, hv => by
    rw [fieldVisits, List.mem_append] at hv
    rw [shortArraysFields, Bool.and_eq_true] at hshort
    rcases hv with hv | hv
    · exact visits_of_shortArrays ty _ (by push_cast; omega) hshort.1 v hv
    · exact fieldVisits_of_shortArrays tys offsets (field + 1) is h hshort.2 v hv

end

/-- A type that holds a scalar of some size is not empty. -/
theorem allocSize_pos (hDL : DL.Positive) {ty : Ty} {o : ℕ}
    (hpos : ∀ l ∈ DL.leaves ty o, 0 < DL.getTypeStoreSize l.2) (hne : DL.leaves ty o ≠ []) :
    0 < DL.getTypeAllocSize ty := by
  obtain ⟨l, hl⟩ := List.exists_mem_of_ne_nil _ hne
  have := hpos l hl
  have := (leaves_bounds hDL ty o l hl).1
  have := leaves_end_le hDL hl
  omega

mutual

/-- Where the indices lead to the leaves, arrays are short. -/
theorem shortArrays_of_visits (hDL : DL.Positive) : ∀ (ty : Ty) (is : List ℕ) {a : ℤ} {o : ℕ},
    (∀ l ∈ DL.leaves ty o, 0 < DL.getTypeStoreSize l.2) → a ≤ o →
    (∀ v ∈ DL.visits ty is a o, v.address = v.offset) →
    DL.shortArrays ty = true ∧ (DL.leaves ty o ≠ [] → a = o)
  | .struct packed fields, is, a, o, hpos, h, hv => by
    rw [visits] at hv
    rw [leaves] at hpos ⊢
    rw [shortArrays]
    exact shortArrays_of_fieldVisits hDL fields _ 0 is getElementOffsets_length.symm hpos h hv
  | .array 0 elem, is, a, o, _, _, _ => by simp [shortArrays, leaves]
  | .array (n + 1) elem, is, a, o, hpos, h, hv => by
    rw [visits] at hv
    rw [leaves] at hpos
    have helem (i : ℕ) (hi : i ∈ List.range (n + 1)) := shortArrays_of_visits hDL elem (is ++ [i])
      (a := a + (BitVec.ofNat 32 i).toInt * DL.getTypeAllocSize elem)
      (o := o + i * DL.getTypeAllocSize elem)
      (fun l hl => hpos l (List.mem_flatMap.2 ⟨i, hi, hl⟩))
      (by
        push_cast
        exact add_le_add h
          (mul_le_mul_of_nonneg_right (toInt_ofNat_le i) (Int.natCast_nonneg _)))
      fun v hv' => hv v (List.mem_flatMap.2 ⟨i, hi, hv'⟩)
    have hzero : 0 ∈ List.range (n + 1) := List.mem_range.2 (Nat.succ_pos n)
    have hshort := (helem 0 hzero).1
    by_cases hnil : DL.leaves elem 0 = []
    · refine ⟨by simp [shortArrays, hshort, hnil], fun hne => absurd ?_ hne⟩
      rw [leaves, List.flatMap_eq_nil_iff]
      intro i _
      rw [leaves_eq_map, hnil, List.map_nil]
    · have hne (i : ℕ) : DL.leaves elem (o + i * DL.getTypeAllocSize elem) ≠ [] := by
        rw [leaves_eq_map]
        simpa using hnil
      have hsize : 0 < DL.getTypeAllocSize elem :=
        allocSize_pos hDL (fun l hl => hpos l (List.mem_flatMap.2 ⟨0, hzero, hl⟩)) (hne 0)
      have hindex (i : ℕ) (hi : i ∈ List.range (n + 1)) :
          (BitVec.ofNat 32 i).toInt = i ∧ a = o := by
        have heq := (helem i hi).2 (hne i)
        have hle : (BitVec.ofNat 32 i).toInt * DL.getTypeAllocSize elem
            ≤ i * DL.getTypeAllocSize elem :=
          mul_le_mul_of_nonneg_right (toInt_ofNat_le i) (Int.natCast_nonneg _)
        push_cast at heq
        exact ⟨Int.eq_of_mul_eq_mul_right (a := DL.getTypeAllocSize elem) (by omega) (by omega),
          by omega⟩
      have hn : n + 1 ≤ 2 ^ 31 :=
        toInt_ofNat_eq_iff.1 (hindex n (List.mem_range.2 (Nat.lt_succ_self n))).1
      refine ⟨?_, fun _ => (hindex 0 hzero).2⟩
      simp only [shortArrays, hshort, Bool.or_eq_true, Bool.and_eq_true, decide_eq_true_eq]
      exact .inr ⟨trivial, .inl hn⟩
  | .void, is, a, o, _, h, hv | .int _, is, a, o, _, h, hv | .fp _, is, a, o, _, h, hv
  | .ptr _, is, a, o, _, h, hv | .vector _ _, is, a, o, _, h, hv
  | .func _ _, is, a, o, _, h, hv => by
    rw [visits_scalar rfl] at hv
    exact ⟨by simp [shortArrays], fun _ => hv _ (List.mem_singleton_self _)⟩

theorem shortArrays_of_fieldVisits (hDL : DL.Positive) : ∀ (tys : List Ty) (offsets : List ℕ)
    (field : ℕ) (is : List ℕ) {a : ℤ} {o : ℕ}, tys.length = offsets.length →
    (∀ l ∈ DL.fieldLeaves tys offsets o, 0 < DL.getTypeStoreSize l.2) → a ≤ o →
    (∀ v ∈ DL.fieldVisits tys offsets field is a o, v.address = v.offset) →
    DL.shortArraysFields tys = true ∧ (DL.fieldLeaves tys offsets o ≠ [] → a = o)
  | [], offsets, field, is, a, o, _, _, _, _ => by simp [shortArraysFields, fieldLeaves]
  | ty :: tys, offset :: offsets, field, is, a, o, hlen, hpos, h, hv => by
    rw [fieldVisits] at hv
    rw [fieldLeaves] at hpos ⊢
    obtain ⟨hshort, hty⟩ := shortArrays_of_visits hDL ty (is ++ [field]) (a := a + offset)
      (fun l hl => hpos l (List.mem_append_left _ hl)) (by push_cast; omega)
      fun v hv' => hv v (List.mem_append_left _ hv')
    obtain ⟨hshorts, htys⟩ := shortArrays_of_fieldVisits hDL tys offsets (field + 1) is
      (by simpa using hlen) (fun l hl => hpos l (List.mem_append_right _ hl)) h
      fun v hv' => hv v (List.mem_append_right _ hv')
    refine ⟨by rw [shortArraysFields, hshort, hshorts]; rfl, fun hne => ?_⟩
    by_cases hnil : DL.leaves ty (o + offset) = []
    · rw [hnil, List.nil_append] at hne
      exact htys hne
    · have := hty hnil
      push_cast at this
      omega

end

/-! ## Packed leaves -/

section Pack

variable {α β : Type*} {size : α → ℕ}

theorem pack_append : ∀ (xs ys : List α) (p : ℕ),
    pack size p (xs ++ ys) = pack size p xs ++ pack size (p + (xs.map size).sum) ys
  | [], ys, p => by simp [pack]
  | x :: xs, ys, p => by
    rw [List.cons_append, pack, pack, pack_append xs, List.cons_append, List.map_cons,
      List.sum_cons, Nat.add_assoc]

theorem pack_map {f : β → α} : ∀ (xs : List β) (p : ℕ),
    pack size p (xs.map f) = (pack (fun x => size (f x)) p xs).map fun x => (x.1, f x.2)
  | [], p => rfl
  | x :: xs, p => by rw [List.map_cons, pack, pack, pack_map xs, List.map_cons]

theorem map_snd_pack (size : α → ℕ) : ∀ (xs : List α) (p : ℕ),
    (pack size p xs).map (·.2) = xs
  | [], p => rfl
  | x :: xs, p => by rw [pack, List.map_cons, map_snd_pack size xs]

theorem mem_of_mem_pack {xs : List α} {p : ℕ} {x : ℕ × α} (h : x ∈ pack size p xs) :
    x.2 ∈ xs := by
  rw [← map_snd_pack size xs p]
  exact List.mem_map_of_mem h

/-- What is stored one right behind the other is not further on than where it is stored apart. -/
theorem pack_le (start : α → ℕ) : ∀ {xs : List α} {p : ℕ},
    xs.Pairwise (fun x y => start x + size x ≤ start y) → (∀ x ∈ xs, p ≤ start x) →
    ∀ x ∈ pack size p xs, x.1 ≤ start x.2
  | [], p, _, _, x, hx => by cases hx
  | x₀ :: xs, p, hapart, hp, x, hx => by
    obtain ⟨hfirst, hrest⟩ := List.pairwise_cons.1 hapart
    have hx₀ := hp x₀ List.mem_cons_self
    rw [pack, List.mem_cons] at hx
    rcases hx with rfl | hx
    · exact hx₀
    · refine pack_le start hrest (fun y hy => ?_) x hx
      have := hfirst y hy
      omega

theorem pack_end_le : ∀ {xs : List α} {p : ℕ}, ∀ x ∈ pack size p xs,
    x.1 + size x.2 ≤ p + (xs.map size).sum
  | [], p, x, hx => by cases hx
  | x₀ :: xs, p, x, hx => by
    rw [List.map_cons, List.sum_cons]
    rw [pack, List.mem_cons] at hx
    rcases hx with rfl | hx
    · dsimp only
      omega
    · have := pack_end_le x hx
      omega

/-- What is no more in each is as much together exactly when it is in each. -/
theorem sum_eq_sum_iff {f g : α → ℕ} (hle : ∀ x, f x ≤ g x) : ∀ xs : List α,
    (xs.map f).sum = (xs.map g).sum ↔ ∀ x ∈ xs, g x = f x
  | [] => by simp
  | x :: xs => by
    have hx := hle x
    have hxs : (xs.map f).sum ≤ (xs.map g).sum := List.sum_le_sum fun x _ => hle x
    rw [List.map_cons, List.map_cons, List.sum_cons, List.sum_cons, List.forall_mem_cons,
      ← sum_eq_sum_iff hle xs]
    omega

/-- What is stored apart in some bytes takes up no more than these. -/
theorem sum_le_of_apart {start : α → ℕ} : ∀ {xs : List α} {p q : ℕ}, p ≤ q →
    xs.Pairwise (fun x y => start x + size x ≤ start y) →
    (∀ x ∈ xs, p ≤ start x ∧ start x + size x ≤ q) → p + (xs.map size).sum ≤ q
  | [], p, q, h, _, _ => h
  | x :: xs, p, q, _, hapart, hbounds => by
    obtain ⟨hfirst, hrest⟩ := List.pairwise_cons.1 hapart
    have hx := hbounds x List.mem_cons_self
    have ih := sum_le_of_apart hx.2 hrest fun y hy =>
      ⟨hfirst y hy, (hbounds y (List.mem_cons_of_mem _ hy)).2⟩
    rw [List.map_cons, List.sum_cons]
    omega

end Pack

/-- The leaves of a type end before the next ones start. -/
theorem leaves_apart (hDL : DL.Positive) (ty : Ty) (o : ℕ) :
    (DL.leaves ty o).Pairwise fun l l' => l.1 + DL.getTypeStoreSize l.2 ≤ l'.1 := by
  refine (leaves_pairwise hDL ty o).imp fun {l l'} hbefore => ?_
  exact Nat.le_trans (Nat.add_le_add_left (storeSize_le_allocSize (align_pos hDL l.2)) _) hbefore

theorem sum_leaves (ty : Ty) (o : ℕ) :
    ((DL.leaves ty o).map fun l => DL.getTypeStoreSize l.2).sum = DL.packedSize ty := by
  rw [leaves_eq_map, List.map_map]
  rfl

theorem packedSize_scalar {ty : Ty} (h : ty.isAggregateType = false) :
    DL.packedSize ty = DL.getTypeStoreSize ty := by
  rw [packedSize, leaves_scalar h, List.map_singleton, List.sum_singleton]

theorem packedSize_array (n : ℕ) (elem : Ty) :
    DL.packedSize (.array n elem) = n * DL.packedSize elem := by
  rw [packedSize, leaves]
  induction n with
  | zero => simp
  | succ n ih =>
    rw [List.range_succ, List.flatMap_append, List.map_append, List.sum_append, ih,
      List.flatMap_singleton, sum_leaves, Nat.add_mul, Nat.one_mul]

theorem sum_fieldLeaves : ∀ (tys : List Ty) (offsets : List ℕ) (o : ℕ),
    tys.length = offsets.length →
    ((DL.fieldLeaves tys offsets o).map fun l => DL.getTypeStoreSize l.2).sum
      = (tys.map DL.packedSize).sum
  | [], offsets, o, _ => by cases offsets <;> rfl
  | ty :: tys, offset :: offsets, o, hlen => by
    rw [fieldLeaves, List.map_append, List.sum_append, sum_leaves,
      sum_fieldLeaves tys offsets o (by simpa using hlen), List.map_cons, List.sum_cons]

theorem packedSize_struct (packed : Bool) (fields : List Ty) :
    DL.packedSize (.struct packed fields) = (fields.map DL.packedSize).sum := by
  rw [packedSize, leaves]
  exact sum_fieldLeaves fields _ 0 getElementOffsets_length.symm

theorem sum_visits (ty : Ty) (is : List ℕ) (a : ℤ) (o : ℕ) :
    ((DL.visits ty is a o).map fun v => DL.getTypeStoreSize v.ty).sum = DL.packedSize ty := by
  rw [← sum_leaves ty o, ← visits_leaves ty is a o, List.map_map]
  rfl

theorem sum_elementVisits (n : ℕ) (elem : Ty) (is : List ℕ) (a : ℤ) (o : ℕ) :
    (((List.range n).flatMap fun i => DL.visits elem (is ++ [i])
      (a + (BitVec.ofNat 32 i).toInt * DL.getTypeAllocSize elem)
      (o + i * DL.getTypeAllocSize elem)).map fun v => DL.getTypeStoreSize v.ty).sum
      = n * DL.packedSize elem := by
  rw [← packedSize_array, ← sum_visits (.array n elem) is a o, visits]

/-- A type is as large as its leaves, and the padding. -/
theorem packedSize_le_allocSize (hDL : DL.Positive) (ty : Ty) :
    DL.packedSize ty ≤ DL.getTypeAllocSize ty := by
  have h := sum_le_of_apart (Nat.zero_le _) (leaves_apart hDL ty 0) fun l hl =>
    ⟨Nat.zero_le l.1, leaves_end_le hDL hl⟩
  rwa [Nat.zero_add, Nat.zero_add] at h

theorem storeSize_struct (packed : Bool) (fields : List Ty) :
    (placeFields packed 0 (DL.measureFields fields)).2
      ≤ DL.getTypeStoreSize (.struct packed fields) := by
  have hpos := structAlign_pos packed (DL.measureFields fields)
  have h := le_alignTo (n := (placeFields packed 0 (DL.measureFields fields)).2) hpos
  rw [getTypeStoreSize, getTypeSizeInBits, measure]
  dsimp only
  omega

/-- The fields of a struct are placed one behind the other. -/
theorem sum_storeSize_le_placeFields (hDL : DL.Positive) (packed : Bool) :
    ∀ (tys : List Ty) (o : ℕ), o + (tys.map DL.getTypeStoreSize).sum
      ≤ (placeFields packed o (DL.measureFields tys)).2
  | [], o => Nat.le_refl o
  | ty :: tys, o => by
    have hplaced := le_placed hDL packed o ty
    have hsize := storeSize_le_allocSize (align_pos hDL ty)
    have hrest := sum_storeSize_le_placeFields hDL packed tys
      ((if packed then o else alignTo o (DL.measure ty).2) + DL.getTypeAllocSize ty)
    rw [List.map_cons, List.sum_cons, measureFields]
    refine Nat.le_trans ?_ hrest
    omega

mutual

theorem shortArrays_of_noArrays : ∀ {ty : Ty}, noArrays ty = true → DL.shortArrays ty = true
  | .struct packed fields, h => by
    rw [noArrays] at h
    rw [shortArrays]
    exact shortArraysFields_of_noArrays h
  | .array _ _, h => by simp [noArrays] at h
  | .void, _ | .int _, _ | .fp _, _ | .ptr _, _ | .vector _ _, _ | .func _ _, _ => by
    simp [shortArrays]

theorem shortArraysFields_of_noArrays : ∀ {tys : List Ty}, noArraysFields tys = true →
    DL.shortArraysFields tys = true
  | [], _ => rfl
  | ty :: tys, h => by
    rw [noArraysFields, Bool.and_eq_true] at h
    rw [shortArraysFields, shortArrays_of_noArrays h.1, shortArraysFields_of_noArrays h.2]
    rfl

end

mutual

/-- An array has no more elements than its leaves have bytes. -/
theorem shortArrays_of_packedSize_le : ∀ {ty : Ty} {o : ℕ},
    (∀ l ∈ DL.leaves ty o, 0 < DL.getTypeStoreSize l.2) → DL.packedSize ty ≤ 2 ^ 31 →
    DL.shortArrays ty = true
  | .struct packed fields, o, hpos, h => by
    rw [leaves] at hpos
    rw [packedSize_struct] at h
    rw [shortArrays]
    exact shortArraysFields_of_sum_le getElementOffsets_length.symm hpos h
  | .array 0 elem, o, _, _ => by simp [shortArrays]
  | .array (n + 1) elem, o, hpos, h => by
    rw [packedSize_array, Nat.add_mul, Nat.one_mul] at h
    have hfirst : ∀ l ∈ DL.leaves elem o, 0 < DL.getTypeStoreSize l.2 := by
      intro l hl
      refine hpos l ?_
      rw [leaves]
      exact List.mem_flatMap.2 ⟨0, List.mem_range.2 (Nat.succ_pos n), by rwa [Nat.zero_mul]⟩
    have helem := shortArrays_of_packedSize_le hfirst (by omega)
    rw [leaves_eq_map] at hfirst
    rw [shortArrays, helem]
    rcases hl : DL.leaves elem 0 with _ | ⟨l, ls⟩
    · simp
    · have hsize : 0 < DL.getTypeStoreSize l.2 := hfirst (l.1 + o, l.2) (by simp [hl])
      have hone : 0 < DL.packedSize elem := by
        rw [packedSize, hl, List.map_cons, List.sum_cons]
        omega
      have hle := Nat.le_mul_of_pos_right n hone
      simp only [Nat.add_eq_zero_iff, Nat.one_ne_zero, and_false, decide_false, Bool.false_or,
        Bool.true_and, Bool.or_eq_true, decide_eq_true_eq]
      omega
  | .void, _, _, _ | .int _, _, _, _ | .fp _, _, _, _ | .ptr _, _, _, _ | .vector _ _, _, _, _
  | .func _ _, _, _, _ => by
    simp [shortArrays]

theorem shortArraysFields_of_sum_le : ∀ {tys : List Ty} {offsets : List ℕ} {o : ℕ},
    tys.length = offsets.length →
    (∀ l ∈ DL.fieldLeaves tys offsets o, 0 < DL.getTypeStoreSize l.2) →
    (tys.map DL.packedSize).sum ≤ 2 ^ 31 → DL.shortArraysFields tys = true
  | [], _, _, _, _, _ => rfl
  | ty :: tys, offset :: offsets, o, hlen, hpos, h => by
    rw [List.map_cons, List.sum_cons] at h
    rw [fieldLeaves] at hpos
    rw [shortArraysFields,
      shortArrays_of_packedSize_le (fun l hl => hpos l (List.mem_append_left _ hl)) (by omega),
      shortArraysFields_of_sum_le (by simpa using hlen)
        (fun l hl => hpos l (List.mem_append_right _ hl)) (by omega)]
    rfl

end

end LLVM.DataLayout
