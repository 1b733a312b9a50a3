import Mathlib.Data.List.Basic
import Mathlib.Data.Option.Basic

/-!
# Memoised calls

What a memo table for a computation that may fail is to answer, said on the history of its calls:
the value of the first successful call with an equal key, and otherwise what the computation
itself gives. Keys are compared with `==`, which only has to be symmetric and transitive.
-/

namespace Memo

theorem prod_beq {α β : Type*} [BEq α] [BEq β] {p q : α × β} :
    (p == q) = true ↔ (p.1 == q.1) = true ∧ (p.2 == q.2) = true := by
  rw [show (p == q) = (p.1 == q.1 && p.2 == q.2) from rfl, Bool.and_eq_true]

instance prodPartialEquivBEq {α β : Type*} [BEq α] [BEq β] [PartialEquivBEq α]
    [PartialEquivBEq β] : PartialEquivBEq (α × β) where
  symm h := by
    rw [prod_beq] at h ⊢
    exact ⟨PartialEquivBEq.symm h.1, PartialEquivBEq.symm h.2⟩
  trans h h' := by
    rw [prod_beq] at h h' ⊢
    exact ⟨PartialEquivBEq.trans h.1 h'.1, PartialEquivBEq.trans h.2 h'.2⟩

variable {κ ε φ : Type*} [BEq κ]

/-- What the first successful call with key `k` gave. -/
def firstSuccess (calls : List (κ × Except ε φ)) (k : κ) : Option φ :=
  calls.findSome? fun c => if c.1 == k then c.2.toOption else none

/-- The answer to a call with key `k` whose computation gives `r`. -/
def answer (calls : List (κ × Except ε φ)) (k : κ) (r : Except ε φ) : Except ε φ :=
  match firstSuccess calls k with
  | some f => .ok f
  | none => r

variable {calls : List (κ × Except ε φ)} {k k' : κ} {r : Except ε φ} {f : φ}

@[simp] theorem firstSuccess_nil : firstSuccess ([] : List (κ × Except ε φ)) k = none := rfl

theorem firstSuccess_append (calls' : List (κ × Except ε φ)) :
    firstSuccess (calls ++ calls') k = (firstSuccess calls k).or (firstSuccess calls' k) := by
  simp [firstSuccess, List.findSome?_append]

theorem firstSuccess_cons : firstSuccess ((k', r) :: calls) k
    = (if k' == k then r.toOption else none).or (firstSuccess calls k) := by
  unfold firstSuccess
  rw [List.findSome?_cons]
  cases if k' == k then r.toOption else none <;> rfl

theorem firstSuccess_snoc : firstSuccess (calls ++ [(k', r)]) k
    = (firstSuccess calls k).or (if k' == k then r.toOption else none) := by
  rw [firstSuccess_append, firstSuccess_cons, firstSuccess_nil, Option.or_none]

theorem exists_of_firstSuccess (h : firstSuccess calls k = some f) :
    ∃ c ∈ calls, (c.1 == k) = true ∧ c.2 = .ok f := by
  obtain ⟨c, hc, hf⟩ := List.exists_of_findSome?_eq_some h
  split_ifs at hf with hk
  refine ⟨c, hc, hk, ?_⟩
  rcases c with ⟨k', r⟩
  cases r <;> simp only [Except.toOption, Option.some.injEq, reduceCtorEq] at hf
  rw [hf]

theorem firstSuccess_isSome {c : κ × Except ε φ} (hc : c ∈ calls) (hk : (c.1 == k) = true)
    (hf : c.2 = .ok f) : ∃ g, firstSuccess calls k = some g := by
  rw [← Option.isSome_iff_exists, firstSuccess, List.findSome?_isSome_iff]
  exact ⟨c, hc, by simp [hk, hf, Except.toOption]⟩

/-- Equal keys have one answer. -/
theorem firstSuccess_congr [PartialEquivBEq κ] (h : (k == k') = true) :
    firstSuccess calls k = firstSuccess calls k' := by
  unfold firstSuccess
  refine congrArg (fun g => calls.findSome? g) (funext fun c => ?_)
  have : (c.1 == k) = (c.1 == k') := by
    rw [Bool.eq_iff_iff]
    exact ⟨fun h' => PartialEquivBEq.trans h' h,
      fun h' => PartialEquivBEq.trans h' (PartialEquivBEq.symm h)⟩
  rw [this]

end Memo
