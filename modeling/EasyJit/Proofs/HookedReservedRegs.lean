import EasyJit.HookedReservedRegs
import EasyJit.Lib.Except
import Mathlib.Data.List.Induction
import Mathlib.Data.List.Nodup

/-!
# What the hook reserves

The table that is filled has each register under its name. It stays so, and the registers that are
reserved are those that were asked for, when all that is asked for are names of registers; any other
name is put into the table, as a name of the first register (`reservesExactly_iff`).
-/

namespace EasyJit

open UnorderedMap

variable {T : TargetRegisterInfo} {m m' : RegNameToIdx} {bit bit' : BitVector}
  {regs : List String} {calls : List (HookCall T)} {call : HookCall T}

/-! ## The table -/

theorem exists_getElem?_snoc {α : Type*} {xs : List α} {a : α} {i : ℕ} {p : α → Prop} :
    (∃ x, (xs ++ [a])[i]? = some x ∧ p x)
      ↔ (∃ x, xs[i]? = some x ∧ p x) ∨ i = xs.length ∧ p a := by
  constructor
  · rintro ⟨x, hx, hp⟩
    rcases lt_or_ge i xs.length with hi | hi
    · rw [List.getElem?_append_left hi] at hx
      exact .inl ⟨x, hx, hp⟩
    · rw [List.getElem?_append_right hi, List.getElem?_singleton] at hx
      split_ifs at hx with h0
      cases hx
      exact .inr ⟨by omega, hp⟩
  · rintro (⟨x, hx, hp⟩ | ⟨rfl, hp⟩)
    · obtain ⟨hi, -⟩ := List.getElem?_eq_some_iff.1 hx
      exact ⟨x, (List.getElem?_append_left hi).trans hx, hp⟩
    · exact ⟨a, List.getElem?_concat_length, hp⟩

/-- Filling the table goes through the registers, of which the next one is new. -/
theorem lookup_fill : ∀ {names : List String}, (names.map toUpper).Nodup → ∀ (n : String) (i : ℕ),
    (names.zipIdx.foldl (fun (m : RegNameToIdx) reg => m.set (toUpper reg.1) 0 reg.2)
        .empty).lookup n = some i
      ↔ ∃ name, names[i]? = some name ∧ toUpper name = n := by
  intro names
  induction names using List.reverseRecOn with
  | nil =>
    intro _ n i
    simp [UnorderedMap.empty, lookup]
  | append_singleton names a ih =>
    intro hnodup n i
    rw [List.map_append, List.map_cons, List.map_nil, List.nodup_append] at hnodup
    obtain ⟨hnodup, -, hnew⟩ := hnodup
    have ih := ih hnodup
    rw [List.zipIdx_append, List.foldl_append, List.zipIdx_singleton, List.foldl_cons,
      List.foldl_nil]
    generalize names.zipIdx.foldl _ _ = m at ih ⊢
    have hlookup : m.lookup (toUpper a) = none := by
      by_contra hne
      obtain ⟨j, hj⟩ := Option.ne_none_iff_exists'.1 hne
      obtain ⟨name, hname, heq⟩ := (ih _ _).1 hj
      exact hnew _ (List.mem_map_of_mem (List.mem_of_getElem? hname)) _
        (List.mem_singleton_self _) heq
    rw [set_of_none (lookup_eq_none.1 hlookup), lookup_snoc, Nat.zero_add, exists_getElem?_snoc,
      ← ih, Option.or_eq_some_iff]
    refine or_congr_right ⟨?_, ?_⟩
    · rintro ⟨-, h⟩
      split_ifs at h with han
      cases h
      exact ⟨rfl, beq_iff_eq.1 han⟩
    · rintro ⟨rfl, rfl⟩
      exact ⟨hlookup, if_pos (beq_self_eq_true _)⟩

theorem isTableOf_fill : (fillRegNameToIdx T .empty).IsTableOf T := lookup_fill T.nodup

/-- A table that is not filled yet, or holds the target's registers. -/
def IsEmptyOrTable (m : RegNameToIdx) (T : TargetRegisterInfo) : Prop :=
  m = .empty ∨ m.IsTableOf T

theorem isTableOf_of_isEmptyOrTable (h : IsEmptyOrTable m T) :
    (if m.entries.isEmpty then fillRegNameToIdx T m else m).IsTableOf T := by
  rcases h with rfl | h
  · exact isTableOf_fill
  · split_ifs with hempty
    · have hm : m = .empty := by
        obtain ⟨entries⟩ := m
        exact congrArg UnorderedMap.mk (List.isEmpty_iff.1 hempty)
      subst hm
      exact isTableOf_fill
    · exact h

/-! ## One call -/

/-- The name is that of a register, in whatever case. -/
def TargetRegisterInfo.Has (T : TargetRegisterInfo) (reg : String) : Prop :=
  ∃ name ∈ T.names, toUpper name = toUpper reg

/-- A name of a register gives its bit, and leaves the table. -/
theorem reserveReg_of_has {reg : String} (hm : m.IsTableOf T) (hbit : bit.length = T.names.length)
    (hreg : T.Has reg) : ∃ bit' : BitVector, reserveReg (m, bit) reg = .ok (m, bit')
      ∧ bit'.length = T.names.length
      ∧ ∀ i : ℕ, bit'[i]? = some true ↔ bit[i]? = some true
        ∨ ∃ name, T.names[i]? = some name ∧ toUpper name = toUpper reg := by
  obtain ⟨name, hname, heq⟩ := hreg
  obtain ⟨idx, hidx⟩ := List.mem_iff_getElem?.1 hname
  have hlookup : m.lookup (toUpper reg) = some idx := (hm _ _).2 ⟨name, hidx, heq⟩
  have hlt : idx < bit.length := hbit ▸ (List.getElem?_eq_some_iff.1 hidx).1
  refine ⟨bit.set idx true, ?_, by rw [List.length_set, hbit], fun i => ?_⟩
  · simp only [reserveReg, subscript_of_lookup hlookup, BitVector.setBit, if_pos hlt, bind,
      Except.bind]
  · have hiff : (∃ name, T.names[i]? = some name ∧ toUpper name = toUpper reg) ↔ i = idx := by
      rw [← hm, hlookup, Option.some.injEq, eq_comm]
    rw [hiff, List.getElem?_set]
    by_cases hi : idx = i
    · subst hi
      simp [hlt]
    · simp [hi, Ne.symm hi]

theorem foldlM_reserveReg (hm : m.IsTableOf T) : ∀ {regs : List String} {bit : BitVector},
    (∀ reg ∈ regs, T.Has reg) → bit.length = T.names.length →
    ∃ bit' : BitVector, regs.foldlM reserveReg (m, bit) = .ok (m, bit')
      ∧ bit'.length = T.names.length
      ∧ ∀ i : ℕ, bit'[i]? = some true ↔ bit[i]? = some true
        ∨ ∃ reg ∈ regs, ∃ name, T.names[i]? = some name ∧ toUpper name = toUpper reg
  | [], bit, _, hbit => ⟨bit, rfl, hbit, by simp⟩
  | reg :: regs, bit, hregs, hbit => by
    obtain ⟨hreg, hregs⟩ := List.forall_mem_cons.1 hregs
    obtain ⟨bit₁, h₁, hbit₁, hmem₁⟩ := reserveReg_of_has hm hbit hreg
    obtain ⟨bit', h', hbit', hmem'⟩ := foldlM_reserveReg hm hregs hbit₁
    refine ⟨bit', ?_, hbit', fun i => ?_⟩
    · rw [List.foldlM_cons, Except.bind_eq_ok]
      exact ⟨_, h₁, h'⟩
    · rw [hmem', hmem₁, List.exists_mem_cons_iff, or_assoc]

/-- What is asked for is in the table afterwards, whatever it is. -/
theorem lookup_of_reserveReg {s s' : RegNameToIdx × BitVector} {reg n : String}
    (h : reserveReg s reg = .ok s') (hn : (s.1.lookup n).isSome ∨ toUpper reg = n) :
    (s'.1.lookup n).isSome := by
  obtain ⟨bit', -, heq⟩ := Except.bind_eq_ok.1 h
  cases heq
  exact lookup_subscript hn

theorem lookup_of_foldlM : ∀ {regs : List String} {s s' : RegNameToIdx × BitVector} {n : String},
    regs.foldlM reserveReg s = .ok s' → ((s.1.lookup n).isSome ∨ ∃ reg ∈ regs, toUpper reg = n) →
    (s'.1.lookup n).isSome
  | [], s, s', n, h, hn => by
    cases h
    exact hn.resolve_right fun h => by simp at h
  | reg :: regs, s, s', n, h, hn => by
    rw [List.foldlM_cons] at h
    obtain ⟨s₁, h₁, h⟩ := Except.bind_eq_ok.1 h
    rw [List.exists_mem_cons_iff, ← or_assoc] at hn
    exact lookup_of_foldlM h (hn.imp_left (lookup_of_reserveReg h₁))

theorem hookedGetReservedRegs_of_has (hm : IsEmptyOrTable m T)
    (hregs : ∀ reg ∈ call.reservedRegs, T.Has reg) :
    ∃ m' bit, hookedGetReservedRegs m call = .ok (m', bit) ∧ bit.length = T.names.length
      ∧ (∀ i, bit[i]? = some true ↔ call.IsReserved i) ∧ m'.IsTableOf T := by
  have htable := isTableOf_of_isEmptyOrTable hm
  obtain ⟨bit, hbit, hlength, hmem⟩ := foldlM_reserveReg htable hregs call.length_original
  exact ⟨_, bit, hbit, hlength, hmem, htable⟩

/-! ## Runs -/

/-- While only names of registers are asked for, the table is that of the target. -/
theorem regNameToIdxAfter_of_has : ∀ {calls : List (HookCall T)} {m : RegNameToIdx},
    IsEmptyOrTable m T → (∀ call ∈ calls, ∀ reg ∈ call.reservedRegs, T.Has reg) →
    ∃ m', calls.foldlM (fun m call => (hookedGetReservedRegs m call).map (·.1)) m = .ok m'
      ∧ IsEmptyOrTable m' T
  | [], m, hm, _ => ⟨m, rfl, hm⟩
  | call :: calls, m, hm, hcalls => by
    obtain ⟨hcall, hcalls⟩ := List.forall_mem_cons.1 hcalls
    obtain ⟨m₁, bit, h₁, -, -, hm₁⟩ := hookedGetReservedRegs_of_has hm hcall
    obtain ⟨m', h', hm'⟩ := regNameToIdxAfter_of_has (.inr hm₁) hcalls
    refine ⟨m', ?_, hm'⟩
    rw [List.foldlM_cons, Except.bind_eq_ok]
    exact ⟨m₁, by rw [h₁]; rfl, h'⟩

/-- A name that is asked for and is no register's would be in the table. -/
theorem has_of_reservesExactly (h : ReservesExactly calls) :
    ∀ call ∈ calls, ∀ reg ∈ call.reservedRegs, T.Has reg := by
  intro call hcall reg hreg
  obtain ⟨pre, post, rfl⟩ := List.append_of_mem hcall
  obtain ⟨m, m', bit, -, hhook, -, -, htable⟩ := h pre call post rfl
  obtain ⟨i, hi⟩ := Option.isSome_iff_exists.1
    (lookup_of_foldlM (n := toUpper reg) hhook (.inr ⟨reg, hreg, rfl⟩))
  obtain ⟨name, hname, heq⟩ := (htable _ _).1 hi
  exact ⟨name, List.mem_of_getElem? hname, heq⟩

/-- The hook is right in a run exactly when all that is ever asked for are names of registers. -/
theorem reservesExactly_iff (calls : List (HookCall T)) : ReservesExactly calls
    ↔ ∀ call ∈ calls, ∀ reg ∈ call.reservedRegs, T.Has reg := by
  constructor
  · exact has_of_reservesExactly
  · rintro h pre call post rfl
    have hpre : ∀ call ∈ pre, ∀ reg ∈ call.reservedRegs, T.Has reg :=
      fun call hcall => h call (List.mem_append_left _ hcall)
    obtain ⟨m, hm, hempty⟩ := regNameToIdxAfter_of_has (.inl rfl) hpre
    obtain ⟨m', bit, hhook, hlength, hmem, htable⟩ := hookedGetReservedRegs_of_has hempty
      (h call (List.mem_append_right _ List.mem_cons_self))
    exact ⟨m, m', bit, hm, hhook, hlength, hmem, htable⟩

section Samples

/-- A target with the register `eax`, and the first register, which is none. -/
def oneRegister : TargetRegisterInfo where
  names := ["", "eax"]
  nodup := by decide

/-- A name that no register has reserves the first one. -/
theorem not_reservesExactly_unknown :
    hookedGetReservedRegs .empty (⟨[false, false], rfl, ["foo"]⟩ : HookCall oneRegister)
        = .ok (⟨[("", 0), ("EAX", 1), ("FOO", 0)]⟩, [true, false])
      ∧ ¬ ReservesExactly [(⟨[false, false], rfl, ["foo"]⟩ : HookCall oneRegister)] := by
  refine ⟨rfl, fun h => ?_⟩
  have hfoo := has_of_reservesExactly h _ (List.mem_singleton_self _) "foo"
    (List.mem_singleton_self _)
  revert hfoo
  unfold TargetRegisterInfo.Has
  decide

end Samples

end EasyJit
