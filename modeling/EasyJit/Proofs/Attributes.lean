import EasyJit.Proofs.Layout
import EasyJit.Sample

/-!
# The attributes of the wrapper

`RemapAttributes` gives each field of a new argument the attributes of the field it stands for,
at the index it has among the new arguments. That is the parameter of the wrapper unless the
wrapper has a struct return before them (`createWrapperFun_attributesFollow_iff`).
-/

namespace EasyJit

open LLVM Linker

/-- The layout groups the parameters of the function, after its struct return, by arguments. -/
structure IsLayoutOf (HLL : HighLevelLayout) (F : FunctionInfo) : Prop where
  structReturn : HLL.structReturn = if F.returnsStruct then F.params[0]? else none
  ret : HLL.ret = F.ret
  params : getWrapperTy HLL = F.params
  position : ∀ (i : ℕ) arg, HLL.args[i]? = some arg → arg.position = i
  firstParamIdx : ∀ (i : ℕ) arg, HLL.args[i]? = some arg → arg.firstParamIdx
    = HLL.structReturn.toList.length + ((HLL.args.take i).map (·.types.length)).sum

/-- The attributes of the parameter of the function that a field of a new argument stands for. -/
def originalAttributes (F : FunctionInfo) (HLL : HighLevelLayout) (newArg : HighLevelArg)
    (field : ℕ) : List Attr :=
  F.getParamAttributes (field + (HLL.args[newArg.position]?.elim 0 (·.firstParamIdx)))

/-- The parameter of the wrapper for a field of a new argument. -/
def wrapperParamIdx (HLL : HighLevelLayout) (newArg : HighLevelArg) (field : ℕ) : ℕ :=
  HLL.structReturn.toList.length + newArg.firstParamIdx + field

/-- Each parameter of the wrapper has the attributes of the parameter it stands for, its struct
return is marked as one and has no other parameter's attributes, and the wrapper has the
function's. -/
structure AttributesFollow (F : FunctionInfo) (HLL newHLL : HighLevelLayout) (W : FunctionInfo) :
    Prop where
  fnAttrs : ∀ a, a ∈ W.fnAttrs ↔ a ∈ F.fnAttrs
  params : ∀ newArg ∈ newHLL.args, ∀ field < newArg.types.length, ∀ a,
    a ∈ W.getParamAttributes (wrapperParamIdx HLL newArg field)
      ↔ a ∈ originalAttributes F HLL newArg field
  structReturn : HLL.structReturn.isSome = true → .structRet ∈ W.getParamAttributes 0
    ∧ ∀ a ∈ W.getParamAttributes 0, a = .structRet ∨ a ∈ F.getParamAttributes 0

section

variable {F : FunctionInfo} {HLL newHLL : HighLevelLayout} {attrs attrs' : List (List Attr)}

/-- The attributes of the fields of the new arguments, in order. -/
def fieldAttributes (F : FunctionInfo) (HLL : HighLevelLayout) (args : List HighLevelArg) :
    List (List Attr) :=
  args.flatMap fun arg => (List.range arg.types.length).map (originalAttributes F HLL arg)

theorem fieldAttributes_cons (arg : HighLevelArg) (args : List HighLevelArg) :
    fieldAttributes F HLL (arg :: args)
      = (List.range arg.types.length).map (originalAttributes F HLL arg)
        ++ fieldAttributes F HLL args :=
  List.flatMap_cons

theorem length_fieldAttributes (F : FunctionInfo) (HLL : HighLevelLayout)
    (args : List HighLevelArg) :
    (fieldAttributes F HLL args).length = (args.map (·.types.length)).sum := by
  induction args with
  | nil => rfl
  | cons arg args ih =>
    rw [fieldAttributes_cons, List.length_append, List.length_map, List.length_range,
      List.map_cons, List.sum_cons, ih]

theorem fieldAttributes_setFirstParamIdx : ∀ (n : ℕ) (args : List HighLevelArg),
    fieldAttributes F HLL (setFirstParamIdx n args) = fieldAttributes F HLL args
  | _, [] => rfl
  | n, arg :: args => by
    rw [setFirstParamIdx, fieldAttributes_cons, fieldAttributes_setFirstParamIdx,
      fieldAttributes_cons]
    rfl

/-- The fields of an argument get their attributes one after the other. -/
theorem foldl_modify_getElem? (f : ℕ → List Attr) (k n i : ℕ) :
    ((List.range n).foldl (fun attrs field => attrs.modify (field + k) (· ++ f field)) attrs)[i]?
      = attrs[i]?.map fun a => a ++ if k ≤ i ∧ i < k + n then f (i - k) else [] := by
  induction n with
  | zero =>
    have h : ¬ (k ≤ i ∧ i < k) := by omega
    simp [if_neg h]
  | succ n ih =>
    rw [List.range_succ, List.foldl_append, List.foldl_cons, List.foldl_nil, List.getElem?_modify,
      ih]
    by_cases hi : n + k = i
    · have h₁ : ¬ (k ≤ i ∧ i < k + n) := by omega
      have h₂ : k ≤ i ∧ i < k + (n + 1) := by omega
      have h₃ : i - k = n := by omega
      simp [hi, if_neg h₁, if_pos h₂, h₃]
    · have h : (k ≤ i ∧ i < k + (n + 1)) ↔ k ≤ i ∧ i < k + n := by omega
      simp only [hi, if_false, if_congr h rfl rfl, id_map']

theorem remap_getElem? : ∀ {args : List HighLevelArg} {n : ℕ} {attrs attrs' : List (List Attr)},
    remapParamAttributes F HLL { newHLL with args := setFirstParamIdx n args } attrs = .ok attrs' →
    ∀ i : ℕ, attrs'[i]? = attrs[i]?.map fun a =>
      a ++ if n ≤ i then (fieldAttributes F HLL args)[i - n]?.getD [] else []
  | [], n, attrs, attrs', h, i => by
    cases h
    simp [fieldAttributes]
  | arg :: args, n, attrs, attrs', h, i => by
    simp only [remapParamAttributes, setFirstParamIdx, List.foldlM_cons, Except.bind_eq_ok] at h
    obtain ⟨attrs₁, h₁, h⟩ := h
    rw [remap_getElem? h i]
    cases hpos : HLL.args[arg.position]? with
    | none => simp [hpos] at h₁
    | some orgArg =>
      simp only [hpos, Except.ok.injEq] at h₁
      rw [← h₁, foldl_modify_getElem? (fun field =>
        F.getParamAttributes (field + orgArg.firstParamIdx)), Option.map_map]
      have horg : originalAttributes F HLL arg
          = fun field => F.getParamAttributes (field + orgArg.firstParamIdx) := by
        funext field
        rw [originalAttributes, hpos, Option.elim_some]
      refine congrArg (Option.map · _) (funext fun a => ?_)
      rw [Function.comp_apply, fieldAttributes_cons, horg, List.append_assoc]
      congr 1
      by_cases hn : n ≤ i
      · by_cases hi : i < n + arg.types.length
        · have h₁ : ¬ n + arg.types.length ≤ i := by omega
          rw [if_pos ⟨hn, hi⟩, if_neg h₁, if_pos hn, List.append_nil,
            List.getElem?_append_left (by simp; omega), List.getElem?_map,
            List.getElem?_range (by omega)]
          rfl
        · have h₁ : ¬ (n ≤ i ∧ i < n + arg.types.length) := by omega
          rw [if_neg h₁, if_pos (by omega), if_pos hn, List.nil_append,
            List.getElem?_append_right (by simp; omega), List.length_map, List.length_range,
            Nat.sub_sub]
      · have h₁ : ¬ (n ≤ i ∧ i < n + arg.types.length) := by omega
        rw [if_neg h₁, if_neg (by omega), if_neg hn, List.append_nil]

/-! ## Fields and parameters -/

/-- A field has its attributes at the index it has among the new arguments. -/
theorem fieldAttributes_getElem? (F : FunctionInfo) (HLL : HighLevelLayout) :
    ∀ {args : List HighLevelArg} {n : ℕ},
    ∀ newArg ∈ setFirstParamIdx n args, ∀ field < newArg.types.length, n ≤ newArg.firstParamIdx
      ∧ (fieldAttributes F HLL args)[newArg.firstParamIdx - n + field]?
        = some (originalAttributes F HLL newArg field)
  | arg :: args, n, newArg, hmem, field, hfield => by
    rw [setFirstParamIdx, List.mem_cons] at hmem
    rw [fieldAttributes_cons]
    rcases hmem with rfl | hmem
    · have hfield : field < arg.types.length := hfield
      refine ⟨Nat.le_refl n, ?_⟩
      rw [List.getElem?_append_left (by simpa using hfield), List.getElem?_map,
        show n - n + field = field by omega, List.getElem?_range hfield]
      rfl
    · obtain ⟨hle, hget⟩ := fieldAttributes_getElem? F HLL newArg hmem field hfield
      refine ⟨by omega, ?_⟩
      rw [List.getElem?_append_right (by simp; omega), ← hget, List.length_map, List.length_range]
      congr 1
      omega

theorem exists_field : ∀ {args : List HighLevelArg} {n q : ℕ},
    q < (args.map (·.types.length)).sum → ∃ newArg ∈ setFirstParamIdx n args,
      ∃ field < newArg.types.length, newArg.firstParamIdx + field = n + q
  | [], _, _, h => absurd h (Nat.not_lt_zero _)
  | arg :: args, n, q, h => by
    rw [setFirstParamIdx]
    by_cases hq : q < arg.types.length
    · exact ⟨_, List.mem_cons_self, q, hq, rfl⟩
    · rw [List.map_cons, List.sum_cons] at h
      have h' : q - arg.types.length < (args.map (·.types.length)).sum := by omega
      obtain ⟨newArg, hmem, field, hfield, heq⟩ := exists_field (n := n + arg.types.length) h'
      exact ⟨newArg, List.mem_cons_of_mem _ hmem, field, hfield, by omega⟩

/-- The fields, each at its index among the new arguments and with its attributes, are the indices
with the attributes there. -/
theorem forall_field_iff {args : List HighLevelArg} {Q : ℕ → List Attr → Prop} :
    (∀ newArg ∈ setFirstParamIdx 0 args, ∀ field < newArg.types.length,
        Q (newArg.firstParamIdx + field) (originalAttributes F HLL newArg field))
      ↔ ∀ q < (fieldAttributes F HLL args).length,
        Q q ((fieldAttributes F HLL args)[q]?.getD []) := by
  have hfield {newArg : HighLevelArg} (hmem : newArg ∈ setFirstParamIdx 0 args) {field : ℕ}
      (hlt : field < newArg.types.length) :
      (fieldAttributes F HLL args)[newArg.firstParamIdx + field]?
        = some (originalAttributes F HLL newArg field) := by
    obtain ⟨-, hget⟩ := fieldAttributes_getElem? F HLL newArg hmem field hlt
    rwa [Nat.sub_zero] at hget
  constructor
  · intro h q hq
    obtain ⟨newArg, hmem, field, hlt, heq⟩ :=
      exists_field (n := 0) (length_fieldAttributes F HLL args ▸ hq)
    obtain rfl : newArg.firstParamIdx + field = q := by omega
    rw [hfield hmem hlt, Option.getD_some]
    exact h newArg hmem field hlt
  · intro h newArg hmem field hlt
    have hget := hfield hmem hlt
    have hq := h _ (List.getElem?_eq_some_iff.1 hget).1
    rwa [hget, Option.getD_some] at hq

/-- Attributes that are the same at each index and the next one, up to the end, are none at all. -/
theorem eq_nil_of_next (hnext : ∀ q < attrs.length, ∀ a,
    a ∈ attrs[q + 1]?.getD [] ↔ a ∈ attrs[q]?.getD []) :
    ∀ d q : ℕ, q + d = attrs.length → attrs[q]?.getD [] = []
  | 0, q, h => by rw [List.getElem?_eq_none (by omega), Option.getD_none]
  | d + 1, q, h => by
    rw [List.eq_nil_iff_forall_not_mem]
    intro a ha
    rw [← hnext q (by omega) a, eq_nil_of_next hnext d (q + 1) (by omega)] at ha
    cases ha

end

section

variable {β δ : Type} [BitcodeFormat β δ] {P : Process β δ} {M M' : LModule δ}
  {callee : Sym String} {F : FunctionInfo} {HLL newHLL : HighLevelLayout} {C : Context}
  {W : Wrapper}

/-- The attributes of the wrapper's parameters: those of the fields in order, from the first
parameter on, and the mark of the struct return. -/
theorem createWrapperFun_attributes (hnew : getNewLayout C HLL = .ok newHLL)
    (h : createWrapperFun P M callee F HLL C = .ok (M', W)) : W.info.fnAttrs = F.fnAttrs
      ∧ ∀ i < HLL.structReturn.toList.length + (fieldAttributes F HLL newHLL.args).length,
        W.info.getParamAttributes i
          = (if HLL.structReturn.isSome = true ∧ i = 0 then [.structRet] else [])
            ++ (fieldAttributes F HLL newHLL.args)[i]?.getD [] := by
  simp only [createWrapperFun, hnew, Except.bind_eq_ok] at h
  obtain ⟨_, heq, ⟨S, vs⟩, -, ⟨⟩, -, attrs, hattrs, hW⟩ := h
  cases heq
  cases hW
  refine ⟨rfl, fun i hi => ?_⟩
  obtain ⟨args, rfl⟩ : ∃ args, newHLL = { HLL with args := setFirstParamIdx 0 args } := by
    unfold getNewLayout at hnew
    split_ifs at hnew
    exact ⟨_, (Except.ok.inj hnew).symm⟩
  have hget := remap_getElem? hattrs i
  have hlen : i < (getWrapperTy { HLL with args := setFirstParamIdx 0 args }).length := by
    rw [fieldAttributes_setFirstParamIdx, length_fieldAttributes] at hi
    rw [getWrapperTy, List.length_append, flatMap_types_setFirstParamIdx, List.length_flatMap]
    exact hi
  rw [fieldAttributes_setFirstParamIdx]
  rw [if_pos (Nat.zero_le i), Nat.sub_zero] at hget
  rw [FunctionInfo.getParamAttributes, List.getD_eq_getElem?_getD, hget]
  cases hsret : HLL.structReturn with
  | none =>
    simp only [Option.isSome_none, Bool.false_eq_true, if_false, false_and]
    rw [List.getElem?_replicate, if_pos (by simpa [hsret] using hlen)]
    rfl
  | some ty =>
    simp only [Option.isSome_some, if_true, true_and]
    rw [List.getElem?_modify, List.getElem?_replicate, if_pos (by simpa [hsret] using hlen)]
    by_cases hi₀ : i = 0
    · simp [hi₀]
    · simp [hi₀, Ne.symm hi₀]

theorem setFirstParamIdx_of_getNewLayout (hnew : getNewLayout C HLL = .ok newHLL) :
    ∃ args, newHLL.args = setFirstParamIdx 0 args := by
  unfold getNewLayout at hnew
  split_ifs at hnew
  cases hnew
  exact ⟨_, rfl⟩

/-- The attributes follow their parameters exactly when the function returns no struct or no
parameter that is forwarded has attributes. -/
theorem createWrapperFun_attributesFollow_iff (hnew : getNewLayout C HLL = .ok newHLL)
    (h : createWrapperFun P M callee F HLL C = .ok (M', W)) :
    AttributesFollow F HLL newHLL W.info ↔ HLL.structReturn = none
      ∨ ∀ newArg ∈ newHLL.args, ∀ field < newArg.types.length,
        originalAttributes F HLL newArg field = [] := by
  obtain ⟨hfn, hparam⟩ := createWrapperFun_attributes hnew h
  obtain ⟨args, hargs⟩ := setFirstParamIdx_of_getNewLayout hnew
  rw [hargs] at hparam ⊢
  rw [fieldAttributes_setFirstParamIdx] at hparam
  rw [forall_field_iff (Q := fun _ as => as = [])]
  have hfollow : (∀ newArg ∈ newHLL.args, ∀ field < newArg.types.length, ∀ a,
      a ∈ W.info.getParamAttributes (wrapperParamIdx HLL newArg field)
        ↔ a ∈ originalAttributes F HLL newArg field)
      ↔ ∀ q < (fieldAttributes F HLL args).length, ∀ a,
        a ∈ W.info.getParamAttributes (HLL.structReturn.toList.length + q)
          ↔ a ∈ (fieldAttributes F HLL args)[q]?.getD [] := by
    simp only [hargs, wrapperParamIdx, Nat.add_assoc]
    exact forall_field_iff (Q := fun q as => ∀ a,
      a ∈ W.info.getParamAttributes (HLL.structReturn.toList.length + q) ↔ a ∈ as)
  set attrs := fieldAttributes F HLL args
  cases hsret : HLL.structReturn with
  | none =>
    simp only [hsret, Option.toList_none, List.length_nil, Nat.zero_add, Option.isSome_none,
      Bool.false_eq_true, false_and, if_false, List.nil_append] at hparam hfollow
    refine iff_of_true ⟨fun a => by rw [hfn], hfollow.2 fun q hq a => ?_, ?_⟩ (.inl rfl)
    · rw [hparam q hq]
    · intro h
      simp [hsret] at h
  | some ty =>
    simp only [hsret, Option.toList_some, List.length_singleton, Option.isSome_some,
      true_and, Nat.add_comm 1] at hparam hfollow
    have hsucc (q : ℕ) (hq : q < attrs.length) :
        W.info.getParamAttributes (q + 1) = attrs[q + 1]?.getD [] := by
      rw [hparam (q + 1) (by omega), if_neg (Nat.succ_ne_zero q), List.nil_append]
    simp only [reduceCtorEq, false_or]
    constructor
    · intro h
      -- the attributes of a field are also those of the next one, and there are none at the end
      have hnext (q : ℕ) (hq : q < attrs.length) (a : Attr) :
          a ∈ attrs[q + 1]?.getD [] ↔ a ∈ attrs[q]?.getD [] := by
        rw [← hsucc q hq]
        exact hfollow.1 h.params q hq a
      exact fun q hq => eq_nil_of_next hnext _ q (Nat.add_sub_cancel' hq.le)
    · intro h
      have hnil (q : ℕ) : attrs[q]?.getD [] = [] := by
        by_cases hq : q < attrs.length
        · exact h q hq
        · rw [List.getElem?_eq_none (by omega), Option.getD_none]
      refine ⟨fun a => by rw [hfn], hfollow.2 fun q hq a => ?_, fun _ => ?_⟩
      · rw [hsucc q hq, hnil, hnil]
      · rw [hparam 0 (by omega), if_pos rfl, hnil, List.append_nil]
        simp

end

section Samples

open Sample

attribute [local instance] BitcodeFormat.self

/-- A function that returns a struct, with a `signext` parameter. -/
def returning : FunctionInfo where
  origin := .source 0 "build"
  ret := .void
  params := [.ptr (.struct false [.int 64, .int 64]), .int 16]
  paramAttrs := [[.structRet], [.other "signext"]]

def returningLayout : HighLevelLayout :=
  ⟨some (.ptr (.struct false [.int 64, .int 64])), [⟨0, 1, [.int 16], false⟩], .void⟩

theorem returningLayout_isLayoutOf : IsLayoutOf returningLayout returning where
  structReturn := by decide
  ret := rfl
  params := by decide
  position i arg h := by
    match i, h with
    | 0, h =>
      cases h
      rfl
  firstParamIdx i arg h := by
    match i, h with
    | 0, h =>
      cases h
      rfl

theorem createWrapperFun_attributesFollow_iff_plain :
    let P : Process (LModule Unit) Unit := process []
    let F : FunctionInfo :=
      ⟨.source 0 "f", .void, [.int 16], [.other "nounwind"], [[.other "signext"]]⟩
    let M : LModule Unit := Linker.Module.define .empty "f" ⟨.function F, []⟩
    let C : Context := { argumentMapping := [.forward 0] }
    ∃ M' W, createWrapperFun P M (.ext "f") F ⟨none, [paramArg 0 (.int 16)], .void⟩ C = .ok (M', W)
      ∧ AttributesFollow F ⟨none, [paramArg 0 (.int 16)], .void⟩
        ⟨none, [paramArg 0 (.int 16)], .void⟩ W.info := by
  intro P F M C
  have h : createWrapperFun P M (.ext "f") F ⟨none, [paramArg 0 (.int 16)], .void⟩ C
      = .ok (M, ⟨⟨.wrapper F.origin, .void, [.int 16], F.fnAttrs, [[.other "signext"]]⟩, .ext "f",
        [.arg 0]⟩) := rfl
  have hnew : getNewLayout C ⟨none, [paramArg 0 (.int 16)], .void⟩
      = .ok ⟨none, [paramArg 0 (.int 16)], .void⟩ := rfl
  exact ⟨_, _, h, (createWrapperFun_attributesFollow_iff hnew h).2 (.inl rfl)⟩

/-- Behind a struct return, the attributes end up one parameter too early. -/
theorem returning_not_attributesFollow :
    let P : Process (LModule Unit) Unit := process []
    let M : LModule Unit := Linker.Module.define .empty "build" ⟨.function returning, []⟩
    let C : Context := { argumentMapping := [.forward 0] }
    let newHLL : HighLevelLayout := { returningLayout with args := [⟨0, 0, [.int 16], false⟩] }
    IsLayoutOf returningLayout returning ∧ getNewLayout C returningLayout = .ok newHLL
      ∧ ∃ M' W, createWrapperFun P M (.ext "build") returning returningLayout C = .ok (M', W)
        ∧ W.info.paramAttrs = [[.structRet, .other "signext"], []]
        ∧ ¬ AttributesFollow returning returningLayout newHLL W.info := by
  intro P M C newHLL
  have h : createWrapperFun P M (.ext "build") returning returningLayout C
      = .ok (M, ⟨⟨.wrapper returning.origin, .void, returning.params, [],
        [[.structRet, .other "signext"], []]⟩, .ext "build", [.arg 0, .arg 1]⟩) := rfl
  refine ⟨returningLayout_isLayoutOf, rfl, _, _, h, rfl, fun hfollow => ?_⟩
  have hsignext := (hfollow.params ⟨0, 0, [.int 16], false⟩ (by decide) 0 (by decide)
    (.other "signext")).2 (by decide)
  revert hsignext
  decide

end Samples

end EasyJit
