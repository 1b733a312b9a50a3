import EasyJit.Hash
import EasyJit.Proofs.AutoKey

/-!
# Equality and hashes

Keys that are equal have one hash (`hash_coherent`), so that a cache, which looks for a key only
where entries of its hash are kept, finds what it would find anywhere (`Cache.lookup_bucket`).
-/

namespace EasyJit

variable (H : StdHash)

theorem Argument.hash_congr {a b : Argument} (h : (a == b) = true) : a.hash H = b.hash H := by
  rcases Argument.beq_iff.1 h with ⟨rfl, -⟩ | htwins
  · rfl
  · cases a with
    | float x =>
      cases b with
      | float y => exact H.double_congr x y (Double.beq_iff.2 (.inr htwins))
      | _ => exact htwins.elim
    | _ => exact htwins.elim

/-- Element by element, whatever has been gathered before. -/
theorem foldl_hash_congr {as bs : List Argument}
    (h : List.Forall₂ (fun a b => (a == b) = true) as bs) (R : HashValue) :
    as.foldl (fun R Arg => R ^^^ Arg.hash H) R = bs.foldl (fun R Arg => R ^^^ Arg.hash H) R := by
  induction h generalizing R with
  | nil => rfl
  | cons hab _ ih => rw [List.foldl_cons, List.foldl_cons, Argument.hash_congr H hab, ih]

theorem Context.hash_congr {C D : Context} (h : (C == D) = true) : C.hash H = D.hash H := by
  obtain ⟨hlevels, hargs⟩ := Context.beq_iff.1 h
  rw [Context.hash, Context.hash, hlevels, foldl_hash_congr H hargs]

theorem AutoKey.hash_congr {k k' : AutoKey} (h : (k == k') = true) :
    AutoKey.hash H k = AutoKey.hash H k' := by
  obtain ⟨hfn, hC⟩ := key_beq.1 h
  rw [AutoKey.hash, AutoKey.hash, pairHash, pairHash, hfn, Context.hash_congr H hC]

/-- Equal contexts, and equal keys, have one hash, and equality is symmetric and transitive. -/
theorem hash_coherent :
    (∀ C D : Context, (C == D) = true → C.hash H = D.hash H)
      ∧ (∀ k k' : AutoKey, (k == k') = true → AutoKey.hash H k = AutoKey.hash H k')
      ∧ (∀ C D : Context, (C == D) = true → (D == C) = true)
      ∧ ∀ C D E : Context, (C == D) = true → (D == E) = true → (C == E) = true :=
  ⟨fun _ _ => Context.hash_congr H, fun _ _ => AutoKey.hash_congr H,
    fun _ _ => PartialEquivBEq.symm, fun _ _ _ => PartialEquivBEq.trans⟩

/-- Looking among the entries of one bucket is looking among all of them. -/
theorem Cache.lookup_bucket {φ : Type*} (c : Cache AutoKey φ) (buckets : ℕ) (k : AutoKey) :
    UnorderedMap.lookup ⟨c.entries.filter fun e =>
        (AutoKey.hash H e.1).toNat % buckets = (AutoKey.hash H k).toNat % buckets⟩ k
      = c.lookup k :=
  UnorderedMap.lookup_filter fun _ _ he =>
    decide_eq_true (congrArg (·.toNat % buckets) (AutoKey.hash_congr H he))

example : Context.hash .identity (({} : Context).setParameterFloat .posZero)
    = Context.hash .identity (({} : Context).setParameterFloat .negZero) := by decide

end EasyJit
