import EasyJit.CodeCache
import EasyJit.Lib.Memo
import EasyJit.Proofs.Context

/-!
# The code cache and exceptions

A cache is to answer as a memo table does (`Memo.answer`). The entry is inserted, with a null
wrapper, before the compilation that may throw, and nothing takes it out again; so the cache
agrees with the memo table on the runs in which no call that misses throws (`NoThrow`), and only
on those (`failureAtomic_iff_noThrow`).
-/

namespace EasyJit

open UnorderedMap Memo

variable {κ ε φ : Type*} [BEq κ]

namespace Cache

section Calls

variable {c : Cache κ φ} {k : κ} {w : FunctionWrapperBase φ} {r : Except ε φ}

theorem has_eq_false : c.has k = false ↔ c.find k = none := by
  simp [has]

theorem has_eq_true : c.has k = true ↔ ∃ w, c.lookup k = some w := by
  rw [← Bool.not_eq_false, has_eq_false, ← lookup_eq_none, ← ne_eq, Option.ne_none_iff_exists']

theorem jit_of_hit (h : c.lookup k = some w) : c.jit k r = (c, ⟨false, .ok w⟩) := by
  cases hf : c.find k with
  | none => rw [lookup_eq_none.2 hf] at h; cases h
  | some i => simp [jit, emplace_of_find hf, compileIfNotInCache, get?_of_find hf, h]

theorem jit_of_miss_ok (h : c.find k = none) (f : φ) :
    c.jit k (.ok f : Except ε φ)
      = (⟨c.entries ++ [(k, ⟨some f⟩)]⟩, ⟨true, .ok ⟨some f⟩⟩) := by
  simp [jit, emplace_of_none h, compileIfNotInCache, assign_last]

/-- The entry of the call that threw stays. -/
theorem jit_of_miss_error (h : c.find k = none) (e : ε) :
    c.jit k (.error e : Except ε φ) = (⟨c.entries ++ [(k, ⟨none⟩)]⟩, ⟨true, .error e⟩) := by
  simp [jit, emplace_of_none h, compileIfNotInCache]

end Calls

theorem run_snoc (ops : List (CacheOp κ ε φ)) (op : CacheOp κ ε φ) :
    run (ops ++ [op]) = (run ops).step op := by
  simp [run]

/-- The calls to `jit`, with what their compilations give. -/
def calls : List (CacheOp κ ε φ) → List (κ × Except ε φ) :=
  List.filterMap fun op => match op with
    | .jit k r => some (k, r)
    | .has _ => none

/-- A `jit` call that throws leaves the cache as it was, so that its key is not in it and the next
call with the key compiles; every stored wrapper is valid; and a call that returns gives the
wrapper of the first successful call with its key. -/
structure FailureAtomic (ops : List (CacheOp κ ε φ)) : Prop where
  unchanged : ∀ pre k r post e, ops = pre ++ .jit k r :: post →
    ((run pre).jit k r).2.value = .error e →
      ((run pre).jit k r).1 = run pre ∧ ((run pre).jit k r).1.has k = false
        ∧ ∀ r' : Except ε φ, (((run pre).jit k r).1.jit k r').2.compiled = true
  stored : ∀ pre post, ops = pre ++ post → ∀ e ∈ (run pre).entries, e.2.isValid
  returned : ∀ pre k r post w, ops = pre ++ .jit k r :: post →
    ((run pre).jit k r).2.value = .ok w → ∃ f, w = ⟨some f⟩ ∧ answer (calls pre) k r = .ok f

/-- No call to `jit` that misses throws. -/
def NoThrow (ops : List (CacheOp κ ε φ)) : Prop :=
  ∀ pre k e post, ops = pre ++ .jit k (.error e) :: post → (run pre).has k = true

/-- What the cache stores, said on the calls made. -/
structure Sound (ops : List (CacheOp κ ε φ)) : Prop where
  valid : ∀ e ∈ (run ops).entries, e.2.isValid
  lookup : ∀ k, (run ops).lookup k = (firstSuccess (calls ops) k).map fun f => ⟨some f⟩

theorem NoThrow.of_append {pre post : List (CacheOp κ ε φ)} (h : NoThrow (pre ++ post)) :
    NoThrow pre := by
  intro p k e q hp
  exact h p k e (q ++ post) (by simp [hp])

section

omit [BEq κ]

theorem calls_nil : calls ([] : List (CacheOp κ ε φ)) = [] := rfl

theorem calls_append (ops ops' : List (CacheOp κ ε φ)) :
    calls (ops ++ ops') = calls ops ++ calls ops' := List.filterMap_append

theorem calls_cons_jit (k : κ) (r : Except ε φ) (ops : List (CacheOp κ ε φ)) :
    calls (.jit k r :: ops) = (k, r) :: calls ops := rfl

theorem calls_cons_has (k : κ) (ops : List (CacheOp κ ε φ)) :
    calls (.has k :: ops) = calls ops := rfl

end

theorem sound_snoc_hit [PartialEquivBEq κ] {ops : List (CacheOp κ ε φ)} (hS : Sound ops) {k : κ}
    {w : FunctionWrapperBase φ} (hw : (run ops).lookup k = some w) (r : Except ε φ) :
    Sound (ops ++ [.jit k r]) := by
  have hrun : run (ops ++ [.jit k r]) = run ops := by
    rw [run_snoc, step, jit_of_hit hw]
  refine ⟨by rw [hrun]; exact hS.valid, fun k' => ?_⟩
  rw [hrun, hS.lookup, calls_append, calls_cons_jit, calls_nil,
    firstSuccess_snoc]
  cases hk : k == k' with
  | false => simp
  | true =>
    rw [hS.lookup, firstSuccess_congr hk] at hw
    obtain ⟨f, hf, -⟩ := Option.map_eq_some_iff.1 hw
    simp [hf]

theorem sound_snoc_miss {ops : List (CacheOp κ ε φ)} (hS : Sound ops) {k : κ}
    (hk : (run ops).find k = none) (f : φ) : Sound (ops ++ [.jit k (.ok f)]) := by
  have hrun : run (ops ++ [.jit k (.ok f)]) = ⟨(run ops).entries ++ [(k, ⟨some f⟩)]⟩ := by
    rw [run_snoc, step, jit_of_miss_ok hk]
  refine ⟨fun e he => ?_, fun k' => ?_⟩
  · rw [hrun, List.mem_append, List.mem_singleton] at he
    rcases he with he | rfl
    · exact hS.valid e he
    · rfl
  · rw [hrun, lookup_snoc, hS.lookup, calls_append, calls_cons_jit, calls_nil,
    firstSuccess_snoc]
    cases firstSuccess (calls ops) k' <;> cases k == k' <;> rfl

theorem sound_of_noThrow [PartialEquivBEq κ] (ops : List (CacheOp κ ε φ)) :
    NoThrow ops → Sound ops := by
  induction ops using List.reverseRecOn with
  | nil => exact fun _ => ⟨by simp [run, empty], fun k => rfl⟩
  | append_singleton ops op ih =>
    intro h
    have hS := ih h.of_append
    cases op with
    | has k =>
      have hrun : run (ops ++ [.has k]) = run ops := by rw [run_snoc, step]
      have hcalls : calls (ops ++ [.has k]) = calls ops := by
        rw [calls_append, calls_cons_has, calls_nil, List.append_nil]
      exact ⟨by rw [hrun]; exact hS.valid, by rw [hrun, hcalls]; exact hS.lookup⟩
    | jit k r =>
      cases hf : (run ops).find k with
      | some i =>
        obtain ⟨w, hw⟩ := lookup_isSome hf
        exact sound_snoc_hit hS hw r
      | none =>
        cases r with
        | ok f => exact sound_snoc_miss hS hf f
        | error e =>
          have := h ops k e [] rfl
          rw [has, hf] at this
          cases this

/-- A run keeps the cache's promise about exceptions exactly when no call that misses throws. -/
theorem failureAtomic_iff_noThrow [PartialEquivBEq κ] (ops : List (CacheOp κ ε φ)) :
    FailureAtomic ops ↔ NoThrow ops := by
  constructor
  · intro h pre k e post hops
    by_contra hmiss
    have hf := has_eq_false.1 (Bool.not_eq_true _ ▸ hmiss)
    have hj := jit_of_miss_error (φ := φ) hf e
    have hu := (h.unchanged pre k (.error e) post e hops (by rw [hj])).1
    rw [hj] at hu
    have := congrArg (fun c : Cache κ φ => c.entries.length) hu
    simp at this
  · intro h
    refine ⟨fun pre k r post e hops he => ?_, fun pre post hops => ?_,
    fun pre k r post w hops hw => ?_⟩
    · exfalso
      cases hf : (run pre).find k with
      | some i =>
        obtain ⟨w, hw⟩ := lookup_isSome hf
        rw [jit_of_hit hw] at he
        cases he
      | none =>
        cases r with
        | ok f => rw [jit_of_miss_ok hf] at he; cases he
        | error e' =>
          have := h pre k e' post hops
          rw [has, hf] at this
          cases this
    · exact (sound_of_noThrow pre (hops ▸ h).of_append).valid
    · have hS := sound_of_noThrow pre (hops ▸ h).of_append
      cases hf : (run pre).find k with
      | some i =>
        obtain ⟨w', hw'⟩ := lookup_isSome hf
        rw [jit_of_hit hw'] at hw
        cases hw
        rw [hS.lookup] at hw'
        obtain ⟨f, hfs, rfl⟩ := Option.map_eq_some_iff.1 hw'
        exact ⟨f, rfl, by simp [answer, hfs]⟩
      | none =>
        have hfs : firstSuccess (calls pre) k = none := by
          have := lookup_eq_none.2 hf
          rwa [hS.lookup, Option.map_eq_none_iff] at this
        cases r with
        | ok f =>
          rw [jit_of_miss_ok hf] at hw
          cases hw
          exact ⟨f, rfl, by simp [answer, hfs]⟩
        | error e => rw [jit_of_miss_error hf] at hw; cases hw

/-- A call whose compilation would throw is answered from the cache, when its key is there. -/
theorem failureAtomic_of_hit :
    FailureAtomic ([.jit 0 (.ok 7), .has 0, .jit 0 (.error "Cannot find bitcode.")]
      : List (CacheOp ℕ String ℕ)) := by
  refine (failureAtomic_iff_noThrow _).2 fun pre k e post h => ?_
  simp [List.cons_eq_append_iff] at h
  obtain ⟨rfl, ⟨rfl, rfl⟩, rfl⟩ := h
  decide

/-- After a compilation that threw, the key is in the cache. -/
theorem not_failureAtomic_throw :
    ¬ FailureAtomic ([.jit 0 (.error "Cannot find bitcode."), .jit 0 (.ok 7)]
      : List (CacheOp ℕ String ℕ)) := by
  intro h
  have := (h.unchanged [] 0 (.error "Cannot find bitcode.") [.jit 0 (.ok 7)] _ rfl rfl).2.1
  cases this

end Cache

end EasyJit
