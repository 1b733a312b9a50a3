import EasyJit.Specialise
import EasyJit.Lib.Except

/-!
# The layouts of a function and of its wrapper

The layout of a function has one argument for each parameter, or the constructor reads past the
end of the parameters (`ofFunction_eq`). In the layout of the wrapper, a placeholder's argument
is the first one it stands for, and its parameter is the one for the placeholder
(`newArgs_getElem?`).
-/

namespace EasyJit

open LLVM

variable {C : Context} {F : FunctionInfo} {params : List Ty}

/-! ## The layout of the function -/

namespace HighLevelLayout

theorem layoutArgs_eq : ∀ {n argIdx paramIdx : ℕ}, paramIdx + n ≤ params.length →
    layoutArgs params n argIdx paramIdx = .ok (((params.drop paramIdx).take n).mapIdx fun i ty =>
      ⟨argIdx + i, paramIdx + i, [ty], ty.isPointerTy⟩)
  | 0, _, _, _ => by simp [layoutArgs]
  | n + 1, argIdx, paramIdx, h => by
    have hlt : paramIdx < params.length := by omega
    have ih : layoutArgs params n (argIdx + 1) (paramIdx + 1) = _ := layoutArgs_eq (by omega)
    rw [layoutArgs, List.getElem?_eq_getElem hlt, List.drop_eq_getElem_cons hlt,
      List.take_succ_cons, List.mapIdx_cons]
    simp only [ih, bind, Except.bind, Nat.add_zero, Nat.add_assoc, Nat.add_comm 1]

theorem layoutArgs_past : ∀ {n argIdx paramIdx : ℕ}, 0 < n → params.length < paramIdx + n →
    layoutArgs params n argIdx paramIdx = .error .outOfRange
  | n + 1, argIdx, paramIdx, _, h => by
    rw [layoutArgs]
    by_cases hlt : paramIdx < params.length
    · rw [List.getElem?_eq_getElem hlt]
      simp only
      rw [layoutArgs_past (by omega) (by omega)]
      rfl
    · rw [List.getElem?_eq_none (by omega)]

/-- The constructor gets through for a function that has parameters and no struct return. With a
struct return, its last round reads one parameter too many. -/
theorem ofFunction_eq (F : FunctionInfo) : ofFunction F
    = if hasStructRetAttr F = .ok false then .ok ⟨none, F.params.mapIdx paramArg, F.ret⟩
      else .error .outOfRange := by
  unfold ofFunction
  cases hs : hasStructRetAttr F with
  | error e =>
    unfold hasStructRetAttr at hs
    split at hs <;> cases hs
    rfl
  | ok sret =>
    cases sret with
    | false =>
      have hargs : layoutArgs F.params F.params.length 0 0 = _ := layoutArgs_eq (by omega)
      simp only [Nat.zero_add, List.drop_zero, List.take_length] at hargs
      simp only [bind, Except.bind, Bool.false_eq_true, if_false, hargs, if_true]
      rfl
    | true =>
      have hpos : 0 < F.params.length := by
        cases hp : F.params with
        | nil => simp [hasStructRetAttr, hp] at hs
        | cons ty tys => exact Nat.succ_pos _
      have hargs : layoutArgs F.params F.params.length 0 1 = .error .outOfRange :=
        layoutArgs_past hpos (by omega)
      simp [bind, Except.bind, hargs]

end HighLevelLayout

/-! ## The layout of the wrapper -/

theorem placeForwarded_getElem? : ∀ {as : List Argument} {args new : List HighLevelArg}
    {visited : List ℕ} {k : ℕ}, (placeForwarded as args visited new)[k]?
      = new[k]?.map fun old => if k ∈ visited then old
        else ((as.zip args).find? (·.1.forwardIdx = some k)).elim old (·.2)
  | [], args, new, visited, k => by
    simp only [placeForwarded, List.zip_nil_left, List.find?_nil, Option.elim_none, ite_self]
    simp
  | _ :: _, [], new, visited, k => by
    simp only [placeForwarded, List.zip_nil_right, List.find?_nil, Option.elim_none, ite_self]
    simp
  | a :: as, arg :: args, new, visited, k => by
    rw [placeForwarded, List.zip_cons_cons, List.find?_cons]
    cases ha : a.forwardIdx with
    | none =>
      simp only [placeForwarded_getElem?, reduceCtorEq, decide_false]
    | some j =>
      by_cases hj : j ∈ visited
      · simp only [hj, if_true, placeForwarded_getElem?]
        by_cases hjk : j = k
        · simp [← hjk, hj]
        · simp [hjk]
      · simp only [hj, if_false, placeForwarded_getElem?, List.mem_cons]
        by_cases hjk : j = k
        · subst hjk
          by_cases hlt : j < new.length
          · simp [hlt, hj]
          · simp [hlt]
        · simp [hjk, Ne.symm hjk]

@[simp] theorem placeForwarded_length : ∀ {as : List Argument} {args new : List HighLevelArg}
    {visited : List ℕ}, (placeForwarded as args visited new).length = new.length
  | [], _, _, _ | _ :: _, [], _, _ => by simp [placeForwarded]
  | a :: as, arg :: args, new, visited => by
    rw [placeForwarded]
    split
    · exact placeForwarded_length
    · split
      · exact placeForwarded_length
      · rw [placeForwarded_length, List.length_set]

@[simp] theorem setFirstParamIdx_length : ∀ {n : ℕ} {args : List HighLevelArg},
    (setFirstParamIdx n args).length = args.length
  | _, [] => rfl
  | _, _ :: _ => by simp only [setFirstParamIdx, List.length_cons, setFirstParamIdx_length]

theorem setFirstParamIdx_getElem? : ∀ {n : ℕ} {args : List HighLevelArg} {k : ℕ},
    (setFirstParamIdx n args)[k]? = args[k]?.map fun arg =>
      { arg with firstParamIdx := n + ((args.take k).map (·.types.length)).sum }
  | _, [], _ => by simp [setFirstParamIdx]
  | _, _ :: _, 0 => by simp [setFirstParamIdx]
  | n, arg :: args, k + 1 => by
    simp only [setFirstParamIdx, List.getElem?_cons_succ, setFirstParamIdx_getElem?,
      List.take_succ_cons, List.map_cons, List.sum_cons, Nat.add_assoc]

/-! ### The placeholders -/

theorem Argument.forwardIdx_eq_some {a : Argument} {k : ℕ} :
    a.forwardIdx = some k ↔ a = .forward k := by
  cases a <;> simp [forwardIdx]

namespace Context

theorem mem_placeholders {k : ℕ} :
    k ∈ C.placeholders ↔ ∃ i : ℕ, C.argumentMapping[i]? = some (.forward k) := by
  rw [placeholders, List.mem_filterMap]
  simp only [Argument.forwardIdx_eq_some, exists_eq_right, List.mem_iff_getElem?]

/-- No placeholder occurs twice when every occurrence of one is the first. -/
theorem nodup_placeholders : C.placeholders.Nodup ↔ ∀ i k : ℕ,
    C.argumentMapping[i]? = some (.forward k) → ∀ j < i,
      C.argumentMapping[j]? ≠ some (.forward k) := by
  rw [placeholders, List.Nodup, List.pairwise_filterMap, List.pairwise_iff_getElem]
  constructor
  · intro h i k hi j hj hj'
    obtain ⟨hli, hgi⟩ := List.getElem?_eq_some_iff.1 hi
    obtain ⟨hlj, hgj⟩ := List.getElem?_eq_some_iff.1 hj'
    exact h j i hlj hli hj k (by rw [hgj]; rfl) k (by rw [hgi]; rfl) rfl
  · intro h j i hj hi hlt k hk k' hk' heq
    subst heq
    rw [Argument.forwardIdx_eq_some] at hk hk'
    exact h i k (by rw [List.getElem?_eq_getElem hi, hk']) j hlt
      (by rw [List.getElem?_eq_getElem hj, hk])

theorem wrapperParam_succ (k : ℕ) :
    C.wrapperParam (k + 1) = C.wrapperParam k + if k ∈ C.placeholders then 1 else 0 := by
  rw [wrapperParam, List.range_succ, List.filter_append, List.length_append, wrapperParam]
  by_cases h : k ∈ C.placeholders <;> simp [h]

theorem wrapperParam_mono {j k : ℕ} (h : j ≤ k) : C.wrapperParam j ≤ C.wrapperParam k := by
  induction h with
  | refl => exact Nat.le_refl _
  | @step k _ ih =>
    rw [wrapperParam_succ]
    omega

theorem wrapperParam_lt {j k : ℕ} (hj : j ∈ C.placeholders) (h : j < k) :
    C.wrapperParam j < C.wrapperParam k := by
  have h₁ : C.wrapperParam (j + 1) = C.wrapperParam j + 1 := by
    rw [wrapperParam_succ, if_pos hj]
  have h₂ : C.wrapperParam (j + 1) ≤ C.wrapperParam k := wrapperParam_mono h
  omega

theorem wrapperParam_eq {g k : ℕ} (hgk : g ≤ k) (h : ∀ j, g ≤ j → j < k → j ∉ C.placeholders) :
    C.wrapperParam k = C.wrapperParam g := by
  induction hgk with
  | refl => rfl
  | @step k hgk ih =>
    rw [wrapperParam_succ, if_neg (h k hgk (Nat.lt_succ_self k)), Nat.add_zero,
      ih fun j hj hjk => h j hj (Nat.lt_succ_of_lt hjk)]

/-- Where no index is left out, a placeholder is the parameter of its number. -/
theorem wrapperParam_eq_self {k : ℕ} (h : ∀ j < k, j ∈ C.placeholders) :
    C.wrapperParam k = k := by
  induction k with
  | zero => rfl
  | succ k ih =>
    rw [wrapperParam_succ, if_pos (h k (Nat.lt_succ_self k)),
      ih fun j hj => h j (Nat.lt_succ_of_lt hj)]

end Context

theorem foldl_numNewArgs : ∀ (as : List Argument) (n : ℕ),
    let m := as.foldl (fun n a => match a.forwardIdx with
      | some k => max n (k + 1)
      | none => n) n
    n ≤ m ∧ (∀ k ∈ as.filterMap (·.forwardIdx), k < m)
      ∧ (m = n ∨ ∃ k ∈ as.filterMap (·.forwardIdx), m = k + 1)
  | [], n => by simp
  | a :: as, n => by
    simp only [List.foldl_cons]
    cases ha : a.forwardIdx with
    | none =>
      rw [List.filterMap_cons_none ha]
      exact foldl_numNewArgs as n
    | some k =>
      rw [List.filterMap_cons_some ha]
      dsimp only
      obtain ⟨hle, hlt, hm⟩ := foldl_numNewArgs as (max n (k + 1))
      refine ⟨Nat.le_trans (Nat.le_max_left _ _) hle, ?_, ?_⟩
      · rintro j (_ | ⟨_, hj⟩)
        · exact Nat.le_trans (Nat.le_max_right _ _) hle
        · exact hlt j hj
      · rcases hm with hm | ⟨j, hj, hm⟩
        · rcases Nat.le_total n (k + 1) with hn | hn
          · exact .inr ⟨k, List.mem_cons_self, by omega⟩
          · exact .inl (by omega)
        · exact .inr ⟨j, List.mem_cons_of_mem _ hj, hm⟩

theorem lt_numNewArgs {k : ℕ} (h : k ∈ C.placeholders) : k < numNewArgs C :=
  (foldl_numNewArgs C.argumentMapping 0).2.1 k h

theorem numNewArgs_eq {N : ℕ} (h : ∀ k, k ∈ C.placeholders ↔ k < N) : numNewArgs C = N := by
  have hlast : numNewArgs C = 0 ∨ ∃ k ∈ C.placeholders, numNewArgs C = k + 1 :=
    (foldl_numNewArgs C.argumentMapping 0).2.2
  rcases hlast with h₀ | ⟨k, hk, hk'⟩
  · cases N with
    | zero => exact h₀
    | succ N =>
      have := lt_numNewArgs ((h N).2 (Nat.lt_succ_self N))
      omega
  · have hkN := (h k).1 hk
    cases N with
    | zero => omega
    | succ N =>
      have := lt_numNewArgs ((h N).2 (Nat.lt_succ_self N))
      omega

/-! ### The arguments of the wrapper -/

/-- Placeholder `k` occurs at position `i`, and not before it. -/
def FirstAt (C : Context) (i k : ℕ) : Prop :=
  C.argumentMapping[i]? = some (.forward k)
    ∧ ∀ j < i, C.argumentMapping[j]? ≠ some (.forward k)

theorem exists_firstAt {k : ℕ} (h : k ∈ C.placeholders) : ∃ i, FirstAt C i k := by
  have hex := Context.mem_placeholders.1 h
  exact ⟨Nat.find hex, Nat.find_spec hex, fun j hj => Nat.find_min hex hj⟩

theorem FirstAt.unique {i j k : ℕ} (hi : FirstAt C i k) (hj : FirstAt C j k) : i = j := by
  rcases Nat.lt_trichotomy i j with h | h | h
  · exact absurd hi.1 (hj.2 i h)
  · exact h
  · exact absurd hj.1 (hi.2 j h)

/-- The arguments each placeholder of the context stands for. -/
def placed (C : Context) (params : List Ty) : List HighLevelArg :=
  placeForwarded C.argumentMapping (params.mapIdx paramArg) []
    (List.replicate (numNewArgs C) {})

def newArgs (C : Context) (params : List Ty) : List HighLevelArg :=
  setFirstParamIdx 0 (placed C params)

section New

variable {i k : ℕ} {ty : Ty}

theorem find?_firstAt (h : FirstAt C i k) (hty : params[i]? = some ty) :
    (C.argumentMapping.zip (params.mapIdx paramArg)).find? (·.1.forwardIdx = some k)
      = some (.forward k, paramArg i ty) := by
  rw [List.find?_eq_some_iff_getElem]
  obtain ⟨hi, hfirst⟩ := h
  obtain ⟨hi', hgi⟩ := List.getElem?_eq_some_iff.1 hi
  obtain ⟨hp', hgp⟩ := List.getElem?_eq_some_iff.1 hty
  refine ⟨by simp [Argument.forwardIdx], i, by simp [hi', hp'], by simp [hgi, hgp], ?_⟩
  intro j hj
  have hj' : j < C.argumentMapping.length := by omega
  have hne := hfirst j hj
  rw [List.getElem?_eq_getElem hj'] at hne
  simp only [List.getElem_zip, Bool.not_eq_true', decide_eq_false_iff_not]
  intro hk
  rw [Argument.forwardIdx_eq_some] at hk
  exact hne (congrArg some hk)

theorem placed_firstAt (h : FirstAt C i k) (hty : params[i]? = some ty) :
    (placed C params)[k]? = some (paramArg i ty) := by
  have hk : k < numNewArgs C := lt_numNewArgs (Context.mem_placeholders.2 ⟨i, h.1⟩)
  rw [placed, placeForwarded_getElem?, List.getElem?_replicate, if_pos hk, find?_firstAt h hty]
  simp

theorem placed_unused (h : k ∉ C.placeholders) (hk : k < numNewArgs C) :
    (placed C params)[k]? = some {} := by
  have hnone : (C.argumentMapping.zip (params.mapIdx paramArg)).find? (·.1.forwardIdx = some k)
      = none := by
    rw [List.find?_eq_none]
    intro x hx hxk
    have hmem := (List.of_mem_zip hx).1
    exact h (List.mem_filterMap.2 ⟨x.1, hmem, by simpa using hxk⟩)
  rw [placed, placeForwarded_getElem?, List.getElem?_replicate, if_pos hk, hnone]
  simp

variable (hsize : C.size = params.length)
include hsize

theorem exists_param (hi : C.argumentMapping[i]? = some (.forward k)) :
    ∃ ty, params[i]? = some ty := by
  obtain ⟨hlt, -⟩ := List.getElem?_eq_some_iff.1 hi
  exact ⟨_, List.getElem?_eq_getElem (hsize ▸ hlt)⟩

theorem exists_argument (hty : params[i]? = some ty) : ∃ arg, C.argumentMapping[i]? = some arg := by
  obtain ⟨hlt, -⟩ := List.getElem?_eq_some_iff.1 hty
  exact ⟨_, List.getElem?_eq_getElem (Nat.lt_of_lt_of_eq hlt hsize.symm)⟩

theorem placed_sizes (hk : k ≤ numNewArgs C) :
    (((placed C params).take k).map (·.types.length)).sum = C.wrapperParam k := by
  induction k with
  | zero => rfl
  | succ k ih =>
    rw [List.take_add_one, List.map_append, List.sum_append, ih (by omega),
      Context.wrapperParam_succ]
    by_cases hmem : k ∈ C.placeholders
    · obtain ⟨i, hi⟩ := exists_firstAt hmem
      obtain ⟨ty, hty⟩ := exists_param hsize hi.1
      simp [placed_firstAt hi hty, hmem, paramArg]
    · simp [placed_unused hmem (by omega), hmem]

theorem newArgs_firstAt (h : FirstAt C i k) (hty : params[i]? = some ty) :
    (newArgs C params)[k]? = some { paramArg i ty with firstParamIdx := C.wrapperParam k } := by
  have hk : k < numNewArgs C := lt_numNewArgs (Context.mem_placeholders.2 ⟨i, h.1⟩)
  rw [newArgs, setFirstParamIdx_getElem?, placed_firstAt h hty, placed_sizes hsize hk.le]
  simp

theorem newArgs_unused (h : k ∉ C.placeholders) (hk : k < numNewArgs C) :
    (newArgs C params)[k]? = some { firstParamIdx := C.wrapperParam k } := by
  rw [newArgs, setFirstParamIdx_getElem?, placed_unused h hk, placed_sizes hsize hk.le]
  simp

omit hsize in
theorem newArgs_length (params : List Ty) : (newArgs C params).length = numNewArgs C := by
  simp [newArgs, placed]

/-- An argument of the wrapper is the first one of a placeholder, or stands for an index that is
left out and has position 0. -/
theorem newArgs_cases (hk : k < numNewArgs C) : ∃ a, (newArgs C params)[k]? = some a
    ∧ a.firstParamIdx = C.wrapperParam k
    ∧ (FirstAt C a.position k ∨ k ∉ C.placeholders ∧ a.position = 0) := by
  by_cases hmem : k ∈ C.placeholders
  · obtain ⟨i, hi⟩ := exists_firstAt hmem
    obtain ⟨ty, hty⟩ := exists_param hsize hi.1
    exact ⟨_, newArgs_firstAt hsize hi hty, rfl, .inl hi⟩
  · exact ⟨_, newArgs_unused hsize hmem hk, rfl, .inr ⟨hmem, rfl⟩⟩

/-- The search for position `i` stops at the first argument of the wrapper that has it. -/
theorem find?_position {g : ℕ} {a : HighLevelArg} (hg : (newArgs C params)[g]? = some a)
    (ha : a.position = i) (hlt : ∀ j < g, ¬ FirstAt C i j ∧ (j ∉ C.placeholders → i ≠ 0)) :
    (newArgs C params).find? (·.position = i) = some a := by
  rw [List.find?_eq_some_iff_getElem]
  obtain ⟨hg', rfl⟩ := List.getElem?_eq_some_iff.1 hg
  refine ⟨by simpa using ha, g, hg', rfl, fun j hj => ?_⟩
  have hj' : j < numNewArgs C := by
    rw [← newArgs_length params]
    omega
  obtain ⟨b, hb, -, hcases⟩ := newArgs_cases hsize hj'
  obtain ⟨_, hb'⟩ := List.getElem?_eq_some_iff.1 hb
  rw [hb']
  obtain ⟨hfirst, hunused⟩ := hlt j hj
  simp only [Bool.not_eq_true', decide_eq_false_iff_not]
  rintro rfl
  rcases hcases with h | ⟨hmem, h⟩
  · exact hfirst h
  · exact hunused hmem h

/-- A later occurrence of a placeholder is not found. -/
theorem find?_position_eq_none (hi : C.argumentMapping[i]? = some (.forward k))
    (h : ¬ FirstAt C i k) : (newArgs C params).find? (·.position = i) = none := by
  rw [List.find?_eq_none]
  intro a ha hai
  obtain ⟨j, hj⟩ := List.mem_iff_getElem?.1 ha
  have hj' : j < numNewArgs C := by
    rw [← newArgs_length params]
    exact (List.getElem?_eq_some_iff.1 hj).1
  obtain ⟨b, hb, -, hcases⟩ := newArgs_cases hsize hj'
  rw [hj] at hb
  cases hb
  have hai : a.position = i := by simpa using hai
  rcases hcases with hfirst | ⟨-, h₀⟩
  · rw [hai] at hfirst
    have hjk := hfirst.1
    rw [hi] at hjk
    cases hjk
    exact h hfirst
  · refine h ⟨hi, fun j hj => ?_⟩
    omega

theorem find?_position_pos (h : FirstAt C i k) (hi : i ≠ 0) :
    ∃ a, (newArgs C params).find? (·.position = i) = some a
      ∧ a.firstParamIdx = C.wrapperParam k := by
  obtain ⟨ty, hty⟩ := exists_param hsize h.1
  refine ⟨_, find?_position hsize (newArgs_firstAt hsize h hty) rfl fun j hj => ⟨fun hf => ?_,
    fun _ => hi⟩, rfl⟩
  have := hf.1
  rw [h.1] at this
  cases this
  omega

/-- For the first argument, the search stops at the first index that is left out, if one is. -/
theorem find?_position_zero (h : C.argumentMapping[0]? = some (.forward k)) :
    ∃ a g, (newArgs C params).find? (·.position = 0) = some a
      ∧ a.firstParamIdx = C.wrapperParam g ∧ g ≤ k ∧ (g = k ∨ g ∉ C.placeholders)
      ∧ ∀ j < g, j ∈ C.placeholders := by
  have hex : ∃ g, g = k ∨ g ∉ C.placeholders := ⟨k, .inl rfl⟩
  have hmin (j : ℕ) (hj : j < Nat.find hex) : j ≠ k ∧ j ∈ C.placeholders := by
    simpa using Nat.find_min hex hj
  have hle : Nat.find hex ≤ k := Nat.find_le (.inl rfl)
  have hk : k < numNewArgs C := lt_numNewArgs (Context.mem_placeholders.2 ⟨0, h⟩)
  obtain ⟨a, ha, hidx, hcases⟩ := newArgs_cases hsize (Nat.lt_of_le_of_lt hle hk)
  refine ⟨a, Nat.find hex, ?_, hidx, hle, Nat.find_spec hex, fun j hj => (hmin j hj).2⟩
  have hfirst₀ : FirstAt C 0 k := ⟨h, fun j hj => by omega⟩
  have hpos : a.position = 0 := by
    rcases hcases with hf | ⟨-, h₀⟩
    · rcases Nat.find_spec hex with hg | hg
      · rw [hg] at hf
        exact hf.unique hfirst₀
      · exact absurd (Context.mem_placeholders.2 ⟨_, hf.1⟩) hg
    · exact h₀
  refine find?_position hsize ha hpos fun j hj =>
    ⟨fun hf => ?_, fun hj' => absurd (hmin j hj).2 hj'⟩
  have := hf.1
  rw [h] at this
  cases this
  exact (hmin k hj).1 rfl

omit hsize in
/-- An LLVM parameter is forwarded by the new argument at its position. -/
theorem getForwardArgs_paramArg {σ : Type} (ret ret' : Ty) :
    getForwardArgs (σ := σ) (paramArg i ty) ⟨none, params.mapIdx paramArg, ret⟩
      ⟨none, newArgs C params, ret'⟩ = match (newArgs C params).find? (·.position = i) with
        | none => .error .endIterator
        | some a => .ok [.arg a.firstParamIdx] :=
  rfl

/-- A placeholder is passed the parameter for it exactly at its first occurrence. At position 0
the indices below it have to be in use up to the last that is. -/
theorem getForwardArgs_ok_iff {σ : Type} (hi : C.argumentMapping[i]? = some (.forward k))
    (ret ret' : Ty) : getForwardArgs (σ := σ) (paramArg i ty) ⟨none, params.mapIdx paramArg, ret⟩
        ⟨none, newArgs C params, ret'⟩ = .ok [.arg (C.wrapperParam k)]
      ↔ FirstAt C i k ∧ (i = 0 → ∀ j ∈ C.placeholders, j < k → ∀ l < j, l ∈ C.placeholders) := by
  rw [getForwardArgs_paramArg]
  by_cases hfirst : FirstAt C i k
  · by_cases hi₀ : i = 0
    · subst hi₀
      obtain ⟨a, g, hfind, hidx, hgk, hg, hlt⟩ := find?_position_zero hsize hi
      simp only [hfind, hidx, Except.ok.injEq, List.cons.injEq, Value.arg.injEq, and_true, hfirst,
        true_and, forall_const]
      constructor
      · intro hgk' j hj hjk l hl
        by_contra hl'
        have hgl : g ≤ l := by
          by_contra hgl
          exact hl' (hlt l (by omega))
        have := Context.wrapperParam_mono (C := C) hgl
        have := Context.wrapperParam_mono (C := C) hl.le
        have := Context.wrapperParam_lt hj hjk
        omega
      · intro hgap
        refine (Context.wrapperParam_eq hgk fun j hgj hjk hj => ?_).symm
        rcases hg with rfl | hg
        · omega
        · rcases Nat.lt_or_eq_of_le hgj with hlt' | rfl
          · exact hg (hgap j hj hjk g hlt')
          · exact hg hj
    · obtain ⟨a, hfind, hidx⟩ := find?_position_pos hsize hfirst hi₀
      simp [hfind, hidx, hfirst, hi₀]
  · simp [find?_position_eq_none hsize hi hfirst, hfirst]

/-! ### The wrapper's parameters -/

omit hsize in
theorem flatMap_types_setFirstParamIdx : ∀ {n : ℕ} {args : List HighLevelArg},
    (setFirstParamIdx n args).flatMap (·.types) = args.flatMap (·.types)
  | _, [] => rfl
  | _, _ :: _ => by
    simp only [setFirstParamIdx, List.flatMap_cons, flatMap_types_setFirstParamIdx]

theorem wrapperTypes_length :
    ((newArgs C params).flatMap (·.types)).length = C.wrapperParam (numNewArgs C) := by
  have h := placed_sizes (k := numNewArgs C) hsize le_rfl
  have hlen : (placed C params).length = numNewArgs C := by simp [placed]
  rw [← hlen, List.take_length, hlen] at h
  rw [newArgs, flatMap_types_setFirstParamIdx, List.length_flatMap, h]

/-- The wrapper's parameter for a placeholder has the type of the first parameter it stands
for. -/
theorem wrapperTypes_firstAt (h : FirstAt C i k) (hty : params[i]? = some ty) :
    ((newArgs C params).flatMap (·.types))[C.wrapperParam k]? = some ty := by
  have hk : k < numNewArgs C := lt_numNewArgs (Context.mem_placeholders.2 ⟨i, h.1⟩)
  obtain ⟨hk', hget⟩ := List.getElem?_eq_some_iff.1 (placed_firstAt h hty)
  have hsplit : placed C params
      = (placed C params).take k ++ paramArg i ty :: (placed C params).drop (k + 1) := by
    rw [← hget, List.getElem_cons_drop, List.take_append_drop]
  have hlen : (((placed C params).take k).flatMap (·.types)).length = C.wrapperParam k := by
    rw [List.length_flatMap, placed_sizes hsize hk.le]
  rw [newArgs, flatMap_types_setFirstParamIdx, hsplit, List.flatMap_append, ← hlen,
    List.getElem?_append_right le_rfl]
  simp [paramArg]

end New

end EasyJit
