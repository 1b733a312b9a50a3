import EasyJit.Lib.Declared

/-!
# References that reach what they reached

A reference reaches a definition or, if nothing defines it, a name. Once sources are linked in it
may reach something else (`Binding.SameTarget`). What it reaches stays the same when the names
that are not defined are left alone and the last definition of a name that is defined is the one
that was reached (`Binding.sameTarget_afterAll`, `Binding.sameTarget_entering`).
-/

namespace Linker

variable {ν δ ο ι μ σ : Type*} [DecidableEq ν]

namespace Binding

/-- The same definition is reached, or the same name that nothing defines. -/
def SameTarget (b b' : Binding ν σ) : Prop := b.shape? = b'.shape? ∧ b.declared? = b'.declared?

/-- What a reference of the destination reaches is not changed by the sources. -/
def Stays (srcs : List (Source ν δ ο ι μ)) : Binding ν (Shape δ ο ι) → Prop
  | named n none => ∀ S ∈ srcs, ¬ S.Touches n
  | named n (some x) => lastDefinition n x srcs = x
  | .local _ => True

/-- What a reference of the source `S` reaches is not changed by the module it is linked into,
which defines the names that `defined` says, nor by later sources. -/
def Enters (defined : ν → Bool) (S : Source ν δ ο ι μ) (post : List (Source ν δ ο ι μ)) :
    Binding ν (Shape δ ο ι) → Prop
  | named n none => defined n = false ∧ S.entry ≠ n ∧ ∀ S' ∈ post, ¬ S'.Touches n
  | named n (some x) => S.entry = n ∨ lastDefinition n x post = x
  | .local _ => True

variable {b : Binding ν (Shape δ ο ι)} {M : Module ν δ ο ι μ} {S : Source ν δ ο ι μ}
  {srcs : List (Source ν δ ο ι μ)} {n : ν} {x : Shape δ ο ι}

omit [DecidableEq ν] in
theorem shape?_of_declared? {b : Binding ν σ} (h : b.declared? = some n) : b.shape? = none := by
  rw [declared?_eq_some.1 h]
  rfl

omit [DecidableEq ν] in
theorem declared?_of_shape? {b : Binding ν σ} {y : σ} (h : b.shape? = some y) :
    b.declared? = none := by
  cases hb : b.declared? with
  | none => rfl
  | some n => rw [shape?_of_declared? hb] at h; cases h

omit [DecidableEq ν] in
/-- A name that nothing defines is what is reached as long as nothing defines it. -/
theorem sameTarget_undefined {b : Binding ν σ} :
    b.SameTarget (.named n none) ↔ b.declared? = some n :=
  ⟨fun h => h.2, fun h => ⟨shape?_of_declared? h, h⟩⟩

omit [DecidableEq ν] in
theorem sameTarget_defined {b : Binding ν σ} {y : σ} :
    b.SameTarget (.named n (some y)) ↔ b.shape? = some y :=
  ⟨fun h => h.1, fun h => ⟨h, declared?_of_shape? h⟩⟩

theorem sameTarget_afterAll : (b.afterAll srcs).SameTarget b ↔ b.Stays srcs := by
  cases b with
  | named n y =>
    cases y with
    | none =>
      rw [sameTarget_undefined, declared?_afterAll]
      exact and_iff_right rfl
    | some x => rw [sameTarget_defined, shape?_afterAll_named, Option.some.injEq, Stays]
  | «local» y =>
    rw [afterAll_local]
    exact iff_of_true ⟨rfl, rfl⟩ trivial

theorem sameTarget_entering :
    ((b.entering M S).afterAll srcs).SameTarget b ↔ b.Enters M.defines S srcs := by
  cases b with
  | named n y =>
    cases y with
    | none =>
      rw [sameTarget_undefined, declared?_afterAll, declared?_entering, and_assoc, and_assoc]
      exact and_iff_right rfl
    | some x =>
      have hunder : (named n (some x) : Binding ν (Shape δ ο ι)).entering M S
          = (named n (some x)).privatise S.entry := rfl
      rw [sameTarget_defined, hunder, privatise, Enters]
      by_cases he : n = S.entry
      · rw [if_pos he, afterAll_local]
        exact iff_of_true rfl (.inl he.symm)
      · rw [if_neg he, shape?_afterAll_named, Option.some.injEq, or_iff_right (Ne.symm he)]
  | «local» y =>
    have hunder : (Binding.local y : Binding ν (Shape δ ο ι)).entering M S = .local y := rfl
    rw [hunder, afterAll_local]
    exact iff_of_true ⟨rfl, rfl⟩ trivial

end Binding

end Linker
