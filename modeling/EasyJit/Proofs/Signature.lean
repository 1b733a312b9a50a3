import EasyJit.Proofs.AutoKey
import EasyJit.Proofs.Meta

/-!
# The type of a cached wrapper

The context of a call has its placeholders, and the parameters they stand for make up the type of
the wrapper. So calls of one function with equal contexts have one type, and a wrapper is taken out
of the cache with the type that it was put there with (`wrapper_type_of_key`).
-/

namespace EasyJit

open ArgTraits Cpp UnorderedMap

section

variable {τ : Type} [Cpp τ] [DecidableEq τ] {PL params params' : List τ}
  {args args' opts opts' : List (Actual τ)} {C D : Context}

/-! ## Equal contexts -/

theorem Argument.forward_of_beq {a b : Argument} (h : (a == b) = true) (k : ℕ) :
    a = .forward k ↔ b = .forward k := by
  rcases Argument.beq_iff.1 h with ⟨rfl, -⟩ | htwins
  · rfl
  · cases a <;> cases b <;> simp_all [Argument.ZeroTwins]

/-- Equal contexts have the same placeholders in the same places. -/
theorem Context.forward_of_beq (h : (C == D) = true) (i k : ℕ) :
    C.argumentMapping[i]? = some (.forward k) ↔ D.argumentMapping[i]? = some (.forward k) := by
  obtain ⟨-, hargs⟩ := Context.beq_iff.1 h
  generalize C.argumentMapping = as at hargs
  generalize D.argumentMapping = bs at hargs
  induction hargs generalizing i with
  | nil => rfl
  | cons hab _ ih =>
    cases i with
    | zero => simpa using Argument.forward_of_beq hab k
    | succ i => exact ih i

/-- The first occurrences of placeholders, and the largest of them, are those of the context. -/
theorem Meta.parameterList_congr {AL AL' : List τ} (hlen : PL.length = AL.length)
    (hlen' : PL.length = AL'.length) (hAL : AL.map isPlaceholder = AL'.map isPlaceholder)
    (h : Meta.mapPlaceholderToType PL AL = .ok params)
    (h' : Meta.mapPlaceholderToType PL AL' = .ok params') : params = params' := by
  obtain ⟨hN, hfirst⟩ := Meta.mapPlaceholderToType_firstOf hlen h
  obtain ⟨hN', hfirst'⟩ := Meta.mapPlaceholderToType_firstOf hlen' h'
  have hlength : params.length = params'.length := by
    rw [hN, hN', Meta.largestPlaceholder, hAL, Meta.largestPlaceholder]
  refine List.ext_getElem? fun k => ?_
  by_cases hk : k < params.length
  · obtain ⟨i, hi, hget⟩ := hfirst k hk
    obtain ⟨i', hi', hget'⟩ := hfirst' k (hlength ▸ hk)
    have hii' : i = i' := by
      rw [Meta.FirstOf, hAL, ← Meta.FirstOf] at hi
      exact hi.unique hi'
    rw [hget, hget', hii']
  · rw [List.getElem?_eq_none (by omega), List.getElem?_eq_none (by omega)]

/-- The call type-checks, with its options last. -/
structure Accepts (PL : List τ) (args opts : List (Actual τ)) (params : List τ) (C : Context) :
    Prop extends OptionsLast PL args opts where
  accepted : jitCall PL (args ++ opts) = .ok (params, C)

/-- Calls that record equal contexts have the same placeholders. -/
theorem Accepts.placeholders_eq (h : Accepts PL args opts params C)
    (h' : Accepts PL args' opts' params' D) (hCD : (C == D) = true) :
    (args.map (·.type)).map isPlaceholder = (args'.map (·.type)).map isPlaceholder := by
  have hlen := h.length
  have hlen' := h'.length
  obtain ⟨-, -, hC⟩ := jitCall_eq_ok.1 h.accepted
  obtain ⟨-, -, hD⟩ := jitCall_eq_ok.1 h'.accepted
  have hforward (i k : ℕ) : ((args.map (·.type)).map isPlaceholder)[i]? = some (k + 1)
      ↔ ((args'.map (·.type)).map isPlaceholder)[i]? = some (k + 1) :=
    (h.forward_iff rfl hC).symm.trans
      ((Context.forward_of_beq hCD i k).trans (h'.forward_iff rfl hD))
  generalize hns : (args.map (·.type)).map isPlaceholder = ns at hforward ⊢
  generalize hns' : (args'.map (·.type)).map isPlaceholder = ns' at hforward ⊢
  have hlength : ns.length = ns'.length := by
    rw [← hns, ← hns']
    simp only [List.length_map]
    omega
  refine List.ext_getElem hlength fun i hi hi' => ?_
  have hforward := hforward i
  rw [List.getElem?_eq_getElem hi, List.getElem?_eq_getElem hi'] at hforward
  simp only [Option.some.injEq] at hforward
  -- a number that is not 0 is that of a placeholder
  cases hn : ns[i] with
  | succ k => exact ((hforward k).1 hn).symm
  | zero =>
    cases hn' : ns'[i] with
    | zero => rfl
    | succ k => exact absurd ((hforward k).2 hn') (by omega)

theorem Accepts.params_eq (h : Accepts PL args opts params C)
    (h' : Accepts PL args' opts' params' D) (hCD : (C == D) = true) : params = params' := by
  obtain ⟨hL, -⟩ := jitCall_eq_ok.1 h.accepted
  obtain ⟨hL', -⟩ := jitCall_eq_ok.1 h'.accepted
  rw [Meta.parameterList, h.discardOptions] at hL
  rw [Meta.parameterList, h'.discardOptions] at hL'
  exact Meta.parameterList_congr (by rw [List.length_map, h.length])
    (by rw [List.length_map, h'.length]) (h.placeholders_eq h' hCD) hL hL'

end

/-! ## Runs -/

section

variable {τ : Type} [Cpp τ] [DecidableEq τ]

/-- A call to `easy::jit`, or to a cache, for a function at an address; each function has one
parameter list. -/
structure TypedCall (PL : Ptr → List τ) where
  fn : Ptr
  args : List (Actual τ)
  opts : List (Actual τ)
  /-- The parameters of the wrapper's type. -/
  params : List τ
  context : Context
  accepts : Accepts (PL fn) args opts params context

def TypedCall.key {PL : Ptr → List τ} (call : TypedCall PL) : AutoKey := (call.fn, call.context)

/-- What a call to a cache compiles: a wrapper of the type that the call has. -/
def TypedCall.easyJit {ε : Type*} {PL : Ptr → List τ} (call : TypedCall PL)
    (outcome : Except ε ModulePtr) : Except ε (List τ × ModulePtr) :=
  outcome.map fun mod => (call.params, mod)

/-- Calls to a cache, with what their compilations would give. -/
inductive TypedOp (PL : Ptr → List τ) (ε : Type*)
  | jit (call : TypedCall PL) (outcome : Except ε ModulePtr)
  | has (call : TypedCall PL)

def TypedOp.toCacheOp {PL : Ptr → List τ} {ε : Type*} :
    TypedOp PL ε → CacheOp AutoKey ε (List τ × ModulePtr)
  | .jit call outcome => .jit call.key (call.easyJit outcome)
  | .has call => .has call.key

def typedRun {PL : Ptr → List τ} {ε : Type*} (ops : List (TypedOp PL ε)) :
    Cache AutoKey (List τ × ModulePtr) :=
  Cache.run (ops.map TypedOp.toCacheOp)

/-- Every wrapper that was put into the cache has the type of a call with its key. -/
def HasTypes (PL : Ptr → List τ) (c : Cache AutoKey (List τ × ModulePtr)) : Prop :=
  ∀ e ∈ c.entries, ∀ w, e.2.fn = some w →
    ∃ call : TypedCall PL, e.1 = call.key ∧ w.1 = call.params

variable {PL : Ptr → List τ} {ε : Type*} {c : Cache AutoKey (List τ × ModulePtr)}

theorem HasTypes.snoc (h : HasTypes PL c) (call : TypedCall PL)
    (w : FunctionWrapperBase (List τ × ModulePtr)) (hw : ∀ f, w.fn = some f → f.1 = call.params) :
    HasTypes PL ⟨c.entries ++ [(call.key, w)]⟩ := by
  intro e he f hf
  rcases List.mem_append.1 he with he | he
  · exact h e he f hf
  · cases List.mem_singleton.1 he
    exact ⟨call, rfl, hw f hf⟩

theorem HasTypes.step (h : HasTypes PL c) (op : TypedOp PL ε) :
    HasTypes PL (c.step op.toCacheOp) := by
  cases op with
  | has call => exact h
  | jit call outcome =>
    show HasTypes PL (c.jit call.key (call.easyJit outcome)).1
    cases hf : c.find call.key with
    | some i =>
      obtain ⟨w, hw⟩ := lookup_isSome hf
      rw [Cache.jit_of_hit hw]
      exact h
    | none =>
      cases outcome with
      | error e =>
        rw [TypedCall.easyJit, Except.map, Cache.jit_of_miss_error hf]
        exact h.snoc call ⟨none⟩ fun f hf => by cases hf
      | ok mod =>
        rw [TypedCall.easyJit, Except.map, Cache.jit_of_miss_ok hf]
        refine h.snoc call ⟨some (call.params, mod)⟩ fun f hf => ?_
        cases hf
        rfl

theorem hasTypes_run (ops : List (TypedOp PL ε)) : HasTypes PL (typedRun ops) := by
  induction ops using List.reverseRecOn with
  | nil => exact fun e he => absurd he List.not_mem_nil
  | append_singleton ops op ih =>
    rw [typedRun, List.map_append, List.map_cons, List.map_nil, Cache.run_snoc]
    exact ih.step op

/-- A wrapper that is found has the type of the call that finds it. -/
theorem HasTypes.params_of_lookup (h : HasTypes PL c) (call : TypedCall PL)
    {w : List τ × ModulePtr} (hw : c.lookup call.key = some ⟨some w⟩) : w.1 = call.params := by
  obtain ⟨e, he, hkey, hvalue⟩ := mem_entries_of_lookup hw
  obtain ⟨call', hcall', hparams⟩ := h e he w (by rw [hvalue])
  rw [hcall'] at hkey
  obtain ⟨hfn, hC⟩ := key_beq.1 hkey
  have hfn : call'.fn = call.fn := hfn
  have haccepts := call'.accepts
  rw [hfn] at haccepts
  rw [hparams]
  exact haccepts.params_eq call.accepts hC

/-- Calls of one function that record equal contexts compute the same parameter list. In any run of
a cache on its own keys, the wrapper that a call is given has been created with the parameter list
of the call. -/
theorem wrapper_type_of_key :
    (∀ (PL : List τ) (args args' opts opts' : List (Actual τ)) params params' C D,
      Accepts PL args opts params C → Accepts PL args' opts' params' D → (C == D) = true →
      params = params')
    ∧ ∀ (PL : Ptr → List τ) (pre : List (TypedOp PL ε)) (call : TypedCall PL)
      (outcome : Except ε ModulePtr) w,
      ((typedRun pre).jit call.key (call.easyJit outcome)).2.value = .ok ⟨some w⟩ →
      w.1 = call.params := by
  refine ⟨fun PL args args' opts opts' params params' C D h h' hCD => h.params_eq h' hCD,
    fun PL pre call outcome w hw => ?_⟩
  cases hf : (typedRun pre).find call.key with
  | some i =>
    obtain ⟨w', hw'⟩ := lookup_isSome hf
    rw [Cache.jit_of_hit hw'] at hw
    cases hw
    exact (hasTypes_run pre).params_of_lookup call hw'
  | none =>
    cases outcome with
    | error e =>
      rw [TypedCall.easyJit, Except.map, Cache.jit_of_miss_error hf] at hw
      cases hw
    | ok mod =>
      rw [TypedCall.easyJit, Except.map, Cache.jit_of_miss_ok hf] at hw
      cases hw
      rfl

end

section Samples

open Sample

/-- `_2, 7, _1` for `int, int, char*`. -/
def swappedArgs : List (Actual CppType) :=
  [object (.placeholder 2) [], object .int [7, 0, 0, 0], object (.placeholder 1) []]

theorem accepts_swapped {opts : List (Actual CppType)} {C : Context}
    (hopts : ∀ o ∈ opts, isOption o.type = true)
    (h : jitCall [.int, .int, .pointer] (swappedArgs ++ opts) = .ok ([.pointer, .int], C)) :
    Accepts [.int, .int, .pointer] swappedArgs opts [.pointer, .int] C :=
  ⟨⟨rfl, by decide, hopts⟩, h⟩

/-- A call with the default levels, and one that asks for them and is given the wrapper of the
first. -/
theorem wrapper_type_of_key_options :
    ∃ call call' : TypedCall fun _ => [CppType.int, .int, .pointer],
      call.opts = [] ∧ call'.opts = [object .optLevel [2, 0, 0, 0, 0, 0, 0, 0]]
      ∧ call.params = call'.params
      ∧ ∃ w, ((typedRun [.jit call (.ok 0 : Except Empty ModulePtr)]).jit call'.key
          (call'.easyJit (.ok 1 : Except Empty ModulePtr))).2.value = .ok ⟨some w⟩
        ∧ w.2 = 0 ∧ w.1 = call'.params := by
  have h : Accepts [.int, .int, .pointer] swappedArgs [] [.pointer, .int]
      ⟨[.forward 1, .int 7, .forward 0], 2, 0, "", [], {}⟩ :=
    accepts_swapped (by decide) (by decide)
  have h' : Accepts [.int, .int, .pointer] swappedArgs [object .optLevel [2, 0, 0, 0, 0, 0, 0, 0]]
      [.pointer, .int] ⟨[.forward 1, .int 7, .forward 0], 2, 0, "", [], {}⟩ :=
    accepts_swapped (by decide) (by decide)
  obtain ⟨hparams, hrun⟩ := wrapper_type_of_key (τ := CppType) (ε := Empty)
  refine ⟨⟨16, _, _, _, _, h⟩, ⟨16, _, _, _, _, h'⟩, rfl, rfl,
    hparams _ _ _ _ _ _ _ _ _ h h' (by decide), ([.pointer, .int], 0), rfl, rfl, ?_⟩
  exact hrun (fun _ => [CppType.int, .int, .pointer]) [.jit ⟨16, _, _, _, _, h⟩ (.ok 0)]
    ⟨16, _, _, _, _, h'⟩ (.ok 1) ([.pointer, .int], 0) rfl

end Samples

end EasyJit
