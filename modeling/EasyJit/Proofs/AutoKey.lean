import EasyJit.Proofs.CodeCache

/-!
# `Cache<AutoKey>`

A wrapper found in the cache was compiled for a key that `==` does not tell from the one given.
Two contexts that `==` does not tell apart capture the same bits, or differ in the signs of
captured zeros (`key_beq_iff`); and a context that captures a NaN does not equal itself. So the
cache gives what a compilation would, and goes on giving it, when no call captures a NaN and no
two calls differ by signs of zeros (`autoKeyCorrect_iff`).
-/

namespace EasyJit

open UnorderedMap Memo

/-- The function, the bits of the captured arguments and the levels are the same. -/
def SameCapture (k k' : AutoKey) : Prop :=
  k.1 = k'.1 ∧ k.2.argumentMapping = k'.2.argumentMapping ∧ k.2.getOptLevel = k'.2.getOptLevel

/-- The keys differ, and only in the signs of captured zeros. -/
def ZeroTwinKeys (k k' : AutoKey) : Prop :=
  k.1 = k'.1 ∧ k.2.getOptLevel = k'.2.getOptLevel
    ∧ List.Forall₂ (fun a b => a = b ∨ Argument.ZeroTwins a b) k.2.argumentMapping
        k'.2.argumentMapping
    ∧ k.2.argumentMapping ≠ k'.2.argumentMapping

section Keys

variable {k k' : AutoKey}

theorem key_beq : (k == k') = true ↔ k.1 = k'.1 ∧ (k.2 == k'.2) = true := by
  rw [prod_beq, beq_iff_eq]

theorem noNaN_of_beq (h : (k == k') = true) : k.2.NoNaN := by
  have h2 := (key_beq.1 h).2
  exact Context.beq_self_iff.1 (PartialEquivBEq.trans h2 (PartialEquivBEq.symm h2))

theorem key_beq_iff : (k == k') = true ↔
    k.2.NoNaN ∧ (SameCapture k k' ∨ ZeroTwinKeys k k') := by
  constructor
  · intro h
    obtain ⟨hp, hC⟩ := key_beq.1 h
    obtain ⟨hl, ha⟩ := Context.beq_iff.1 hC
    refine ⟨noNaN_of_beq h, ?_⟩
    by_cases hargs : k.2.argumentMapping = k'.2.argumentMapping
    · exact .inl ⟨hp, hargs, hl⟩
    · refine .inr ⟨hp, hl, ha.imp fun a b hab => ?_, hargs⟩
      exact (Argument.beq_iff.1 hab).imp (·.1) id
  · rintro ⟨hn, h⟩
    rw [key_beq, Context.beq_iff]
    rcases h with ⟨hp, ha, hl⟩ | ⟨hp, hl, ha, -⟩
    · refine ⟨hp, hl, ha ▸ ?_⟩
      exact List.forall₂_same.2 fun a h => Argument.beq_self_iff.2 (hn a h)
    · refine ⟨hp, hl, ?_⟩
      rw [List.forall₂_iff_get] at ha ⊢
      refine ⟨ha.1, fun i hi hi' => ?_⟩
      rcases ha.2 i hi hi' with h | h
      · rw [← h]
        exact Argument.beq_self_iff.2 (hn _ (List.get_mem _ _))
      · exact Argument.beq_iff.2 (.inr h)

end Keys

/-- Each call gives a wrapper compiled from the function it names, with its captured arguments bit
for bit and its levels; and from then on `has` finds the key and `jit` does not compile it
again. -/
structure AutoKeyCorrect (ops : List AutoOp) : Prop where
  returned : ∀ pre p C m post, ops = pre ++ .jit p C m :: post →
    ∃ w : Compiled, ((autoRun pre).jit (p, C) (.ok ⟨(p, C), m⟩ : Except Empty Compiled)).2.value
      = .ok ⟨some w⟩ ∧ SameCapture w.key (p, C)
  found : ∀ pre p C m mid post, ops = pre ++ .jit p C m :: (mid ++ post) →
    (autoRun (pre ++ .jit p C m :: mid)).has (p, C) = true
  once : ∀ pre p C m mid post, ops = pre ++ .jit p C m :: (mid ++ post) →
    ∀ m', ((autoRun (pre ++ .jit p C m :: mid)).jit (p, C)
      (.ok ⟨(p, C), m'⟩ : Except Empty Compiled)).2.compiled = false

/-- No call to `jit` captures a NaN, and none differs from an earlier one only in the signs of
captured zeros. -/
def NoFloatClash (ops : List AutoOp) : Prop :=
  ∀ pre p C m post, ops = pre ++ .jit p C m :: post →
    C.NoNaN ∧ ∀ p' C' m', .jit p' C' m' ∈ pre → ¬ ZeroTwinKeys (p', C') (p, C)

section Run

variable {ops : List AutoOp}

theorem autoRun_sound (ops : List AutoOp) : Cache.Sound (ops.map AutoOp.toCacheOp) := by
  refine Cache.sound_of_noThrow _ fun pre k e post _ => e.elim

theorem mem_calls {c : AutoKey × Except Empty Compiled} :
    c ∈ Cache.calls (ops.map AutoOp.toCacheOp)
      ↔ ∃ p C m, .jit p C m ∈ ops ∧ c = ((p, C), .ok ⟨(p, C), m⟩) := by
  simp only [Cache.calls, List.mem_filterMap, List.mem_map]
  constructor
  · rintro ⟨_, ⟨op, hop, rfl⟩, hc⟩
    cases op with
    | jit p C m =>
      simp only [AutoOp.toCacheOp, Option.some.injEq] at hc
      exact ⟨p, C, m, hop, hc.symm⟩
    | has p C => simp [AutoOp.toCacheOp] at hc
  · rintro ⟨p, C, m, hop, rfl⟩
    exact ⟨_, ⟨_, hop, rfl⟩, rfl⟩

/-- What a call gives: the wrapper of the first call with an equal key, or its own. -/
theorem autoRun_jit (pre : List AutoOp) (p : Ptr) (C : Context) (m : ModulePtr) :
    ∃ w : Compiled, ((autoRun pre).jit (p, C) (.ok ⟨(p, C), m⟩ : Except Empty Compiled)).2.value
        = .ok ⟨some w⟩
      ∧ (firstSuccess (Cache.calls (pre.map AutoOp.toCacheOp)) (p, C)).getD ⟨(p, C), m⟩ = w := by
  have hS := autoRun_sound pre
  cases hf : (autoRun pre).find (p, C) with
  | some i =>
    obtain ⟨w, hw⟩ := lookup_isSome hf
    rw [Cache.jit_of_hit hw]
    rw [autoRun, hS.lookup] at hw
    obtain ⟨f, hfs, rfl⟩ := Option.map_eq_some_iff.1 hw
    exact ⟨f, rfl, by simp [hfs]⟩
  | none =>
    rw [Cache.jit_of_miss_ok hf]
    have hl := lookup_eq_none.2 hf
    rw [autoRun, hS.lookup, Option.map_eq_none_iff] at hl
    exact ⟨_, rfl, by simp [hl]⟩

theorem autoRun_has {p : Ptr} {C : Context} {m : ModulePtr} (h : .jit p C m ∈ ops)
    (hn : C.NoNaN) : (autoRun ops).has (p, C) = true := by
  have hk : ((p, C) == (p, C)) = true := key_beq.2 ⟨rfl, Context.beq_self_iff.2 hn⟩
  obtain ⟨f, hf⟩ := firstSuccess_isSome (mem_calls.2 ⟨p, C, m, h, rfl⟩) hk rfl
  rw [Cache.has_eq_true, autoRun, (autoRun_sound ops).lookup, hf]
  exact ⟨_, rfl⟩

/-- A key found in the cache equals itself. -/
theorem noNaN_of_has {p : Ptr} {C : Context} (h : (autoRun ops).has (p, C) = true) : C.NoNaN := by
  obtain ⟨w, hw⟩ := Cache.has_eq_true.1 h
  obtain ⟨e, -, he, -⟩ := mem_entries_of_lookup hw
  exact noNaN_of_beq (PartialEquivBEq.symm he)

theorem autoKeyCorrect_of_noFloatClash (h : NoFloatClash ops) : AutoKeyCorrect ops := by
  have hfound : ∀ pre p C m mid post, ops = pre ++ .jit p C m :: (mid ++ post) →
      (autoRun (pre ++ .jit p C m :: mid)).has (p, C) = true := by
    intro pre p C m mid post hops
    exact autoRun_has (m := m) (by simp) (h pre p C m _ hops).1
  refine ⟨fun pre p C m post hops => ?_, hfound, fun pre p C m mid post hops m' => ?_⟩
  · obtain ⟨w, hv, hw⟩ := autoRun_jit pre p C m
    refine ⟨w, hv, ?_⟩
    cases hfs : firstSuccess (Cache.calls (pre.map AutoOp.toCacheOp)) (p, C) with
    | none =>
      rw [hfs] at hw
      subst hw
      exact ⟨rfl, rfl, rfl⟩
    | some f =>
      rw [hfs] at hw
      subst hw
      obtain ⟨c, hc, hk, hcf⟩ := exists_of_firstSuccess hfs
      obtain ⟨p', C', m', hmem, rfl⟩ := mem_calls.1 hc
      cases hcf
      exact (key_beq_iff.1 hk).2.resolve_right ((h pre p C m post hops).2 p' C' m' hmem)
  · obtain ⟨w, hw⟩ := Cache.has_eq_true.1 (hfound pre p C m mid post hops)
    rw [Cache.jit_of_hit hw]

/-- The wrapper of an earlier call with an equal key is given again. -/
theorem returned_of_beq {pre pre' : List AutoOp} {p p' : Ptr} {C C' : Context}
    {m m' : ModulePtr} (hpre : ∃ mid, pre = pre' ++ .jit p' C' m' :: mid) (hn : C'.NoNaN)
    (hk : ((p', C') == (p, C)) = true) :
    (firstSuccess (Cache.calls (pre.map AutoOp.toCacheOp)) (p, C)).getD ⟨(p, C), m⟩
      = (firstSuccess (Cache.calls (pre'.map AutoOp.toCacheOp)) (p', C')).getD ⟨(p', C'), m'⟩ := by
  obtain ⟨mid, rfl⟩ := hpre
  have hself : ((p', C') == (p', C')) = true := key_beq.2 ⟨rfl, Context.beq_self_iff.2 hn⟩
  rw [← firstSuccess_congr hk, List.map_append, List.map_cons, Cache.calls_append,
    AutoOp.toCacheOp, Cache.calls_cons_jit, firstSuccess_append, firstSuccess_cons, hself]
  cases firstSuccess (Cache.calls (pre'.map AutoOp.toCacheOp)) (p', C') <;>
    simp [Except.toOption]

theorem noFloatClash_of_autoKeyCorrect (h : AutoKeyCorrect ops) : NoFloatClash ops := by
  intro pre p C m post hops
  have hn := noNaN_of_has (h.found pre p C m [] post (by simpa using hops))
  refine ⟨hn, fun p' C' m' hmem htwin => ?_⟩
  obtain ⟨pre', mid, rfl⟩ := List.append_of_mem hmem
  have hops' : ops = pre' ++ .jit p' C' m' :: (mid ++ .jit p C m :: post) := by simp [hops]
  have hn' := noNaN_of_has (h.found pre' p' C' m' [] _ (by simpa using hops'))
  have hk : ((p', C') == (p, C)) = true := key_beq_iff.2 ⟨hn', .inr htwin⟩
  obtain ⟨w, hv, hw⟩ := autoRun_jit (pre' ++ .jit p' C' m' :: mid) p C m
  obtain ⟨w', hv', hw'⟩ := autoRun_jit pre' p' C' m'
  obtain ⟨u, hu, hsame⟩ := h.returned _ p C m post hops
  obtain ⟨u', hu', hsame'⟩ := h.returned pre' p' C' m' _ hops'
  rw [hv] at hu
  rw [hv'] at hu'
  cases hu
  cases hu'
  rw [returned_of_beq ⟨mid, rfl⟩ hn' hk, hw'] at hw
  subst hw
  exact htwin.2.2.2 (hsame'.2.1.symm.trans hsame.2.1)

/-- The cache on its own keys is right in a run exactly when no call captures a NaN and no two
calls differ only in the signs of captured zeros. -/
theorem autoKeyCorrect_iff (ops : List AutoOp) : AutoKeyCorrect ops ↔ NoFloatClash ops :=
  ⟨noFloatClash_of_autoKeyCorrect, autoKeyCorrect_of_noFloatClash⟩

/-- A call with `-0.0` is given the function compiled for `0.0`. -/
theorem not_autoKeyCorrect_signedZero :
    ¬ AutoKeyCorrect [.jit 0 (({} : Context).setParameterFloat .posZero) 0,
      .jit 0 (({} : Context).setParameterFloat .negZero) 1] := by
  intro h
  obtain ⟨w, hw, hs⟩ :=
    h.returned [.jit 0 (({} : Context).setParameterFloat .posZero) 0] _ _ _ [] rfl
  have hv : w = ⟨(0, ({} : Context).setParameterFloat .posZero), 0⟩ := by
    cases hw
    rfl
  subst hv
  exact absurd hs.2.1 (by decide)

end Run

end EasyJit
