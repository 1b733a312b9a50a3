import EasyJit.Context
import Mathlib.Data.List.Forall2

/-!
# Equality of contexts

Two arguments are equal when they are the same value, other than a NaN, or zeros of opposite
sign (`Argument.beq_iff`). Contexts compare their levels and their arguments, position by
position, and nothing else (`Context.beq_iff`).
-/

namespace EasyJit

namespace Argument

def isNaN : Argument → Bool
  | .float x => x.isNaN
  | _ => false

/-- Two doubles that are zeros of opposite sign. -/
def ZeroTwins : Argument → Argument → Prop
  | .float x, .float y => Double.ZeroTwins x y
  | _, _ => False

instance : DecidableRel ZeroTwins := fun a b => by
  cases a <;> cases b <;> unfold ZeroTwins <;> infer_instance

variable {a b : Argument}

theorem beq_iff : (a == b) = true ↔ (a = b ∧ a.isNaN = false) ∨ ZeroTwins a b := by
  have h : (a == b) = (decide (a.kind = b.kind) && a.compareWithSameType b) := rfl
  rw [h]
  cases a <;> cases b <;> simp [kind, compareWithSameType, isNaN, ZeroTwins, Double.beq_iff]

theorem beq_self_iff : (a == a) = true ↔ a.isNaN = false := by
  rw [beq_iff]
  refine ⟨fun h => h.elim (·.2) fun h => ?_, fun h => .inl ⟨rfl, h⟩⟩
  cases a <;> simp only [ZeroTwins] at h
  exact absurd rfl h.2.2

instance : PartialEquivBEq Argument where
  symm {a b} h := by
    rw [beq_iff] at h ⊢
    rcases h with ⟨rfl, hn⟩ | h
    · exact .inl ⟨rfl, hn⟩
    · cases a <;> cases b <;> simp only [ZeroTwins] at h
      exact .inr ⟨h.2.1, h.1, h.2.2.symm⟩
  trans {a b c} h h' := by
    have hk : a.kind = b.kind ∧ b.kind = c.kind := by
      rw [beq_iff] at h h'
      constructor
      · rcases h with ⟨rfl, -⟩ | h
        · rfl
        · cases a <;> cases b <;> simp only [ZeroTwins] at h
          rfl
      · rcases h' with ⟨rfl, -⟩ | h'
        · rfl
        · cases b <;> cases c <;> simp only [ZeroTwins] at h'
          rfl
    cases a <;> cases b <;> simp only [kind, reduceCtorEq, false_and] at hk <;>
      cases c <;> simp only [reduceCtorEq, and_false] at hk
    case float.float.float x y z =>
      have h1 : (x == y) = true := by simpa [BEq.beq, compareWithSameType, kind] using h
      have h2 : (y == z) = true := by simpa [BEq.beq, compareWithSameType, kind] using h'
      have h3 := PartialEquivBEq.trans h1 h2
      simpa [BEq.beq, compareWithSameType, kind] using h3
    all_goals
      rw [beq_iff] at h h' ⊢
      simp only [ZeroTwins, or_false] at h h' ⊢
      exact ⟨h.1.trans h'.1, h.2⟩

end Argument

namespace Context

variable {C D : Context}

theorem argsEq_iff : ∀ {as bs : List Argument}, as.length = bs.length →
    (argsEq as bs = true ↔ List.Forall₂ (fun a b => (a == b) = true) as bs)
  | [], [], _ => by simp [argsEq]
  | [], _ :: _, h => by simp at h
  | _ :: _, [], h => by simp at h
  | a :: as, b :: bs, h => by
    have ih := argsEq_iff (Nat.succ.inj h)
    cases hab : a == b <;> simp [argsEq, hab, ih]

theorem beq_iff : (C == D) = true ↔ C.getOptLevel = D.getOptLevel
    ∧ List.Forall₂ (fun a b => (a == b) = true) C.argumentMapping D.argumentMapping := by
  have h : (C == D) = (if C.getOptLevel != D.getOptLevel then false
    else if C.size != D.size then false
    else argsEq C.argumentMapping D.argumentMapping) := rfl
  rw [h]
  by_cases hl : C.getOptLevel = D.getOptLevel
  · by_cases hs : C.argumentMapping.length = D.argumentMapping.length
    · simp [hl, size, hs, argsEq_iff hs]
    · have : ¬ List.Forall₂ (fun a b => (a == b) = true) C.argumentMapping D.argumentMapping :=
        fun h => hs h.length_eq
      simp [hl, size, hs, this]
  · simp [hl]

instance : PartialEquivBEq Context where
  symm h := by
    rw [beq_iff] at h ⊢
    exact ⟨h.1.symm, List.Forall₂.flip (h.2.imp fun _ _ h => PartialEquivBEq.symm h)⟩
  trans {C D E} h h' := by
    rw [beq_iff] at h h' ⊢
    refine ⟨h.1.trans h'.1, ?_⟩
    have h1 := h.2
    have h2 := h'.2
    generalize C.argumentMapping = as at h1
    generalize D.argumentMapping = bs at h1 h2
    generalize E.argumentMapping = cs at h2
    induction h1 generalizing cs with
    | nil => cases h2; exact .nil
    | cons hab _ ih =>
      cases h2 with
      | cons hbc hbs => exact .cons (PartialEquivBEq.trans hab hbc) (ih _ hbs)

/-- No argument is a NaN. -/
def NoNaN (C : Context) : Prop := ∀ a ∈ C.argumentMapping, a.isNaN = false

theorem beq_self_iff : (C == C) = true ↔ C.NoNaN := by
  rw [beq_iff, List.forall₂_same]
  simp only [Argument.beq_self_iff, NoNaN, true_and]

end Context

end EasyJit
