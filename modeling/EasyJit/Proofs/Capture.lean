import EasyJit.Sample
import EasyJit.Requirements
import EasyJit.Proofs.Specialise

/-!
# When linking an argument captures something

The arguments are linked in one after the other, and are made private only then, so that each one
may have taken a name that the modules before it and after it call (`capturesNothing_iff`).
-/

namespace EasyJit

open LLVM Linker

variable {β δ : Type} [BitcodeFormat β δ] {P : Process β δ} {M : LModule δ} {C : Context}
  {FHLL wrapperHLL : HighLevelLayout} {S' : LinkState δ} {vs : List LValue}
  {callee : Sym String} {x : LShape δ} {srcs : List (LSource δ)}

theorem getInlineArgs_ok (h : getInlineArgs P C FHLL wrapperHLL ⟨M, []⟩ = .ok (S', vs)) :
    S' = LinkState.linkSources ⟨M, []⟩ (contextSources P FHLL.args C)
      ∧ ∃ vss, vs = (if FHLL.structReturn.isSome then [.arg 0] else []) ++ vss.flatten
        ∧ List.Forall₂ (Passed P FHLL wrapperHLL S'.mod) (FHLL.args.zip C.argumentMapping) vss := by
  simp only [getInlineArgs, Except.bind_eq_ok] at h
  obtain ⟨⟨S₁, vs₁⟩, hargs, heq⟩ := h
  cases heq
  obtain ⟨hS, -, vss, rfl, hpassed⟩ := getInlineArgsFrom_ok hargs
  exact ⟨hS, vss, rfl, hpassed⟩

theorem mem_refs_of_calls {d : Linker.Def String (Option δ) Op GlobalInfo} {s : Sym String}
    (h : s ∈ calls d) : ∃ r ∈ d.refs, r.sym = s := by
  obtain ⟨i, hi, hs⟩ := List.mem_filterMap.1 h
  unfold calledFunction at hs
  split at hs
  · obtain ⟨r, hr, rfl⟩ := Option.map_eq_some_iff.1 hs
    exact ⟨r, List.mem_flatMap.2 ⟨i, hi, List.mem_of_head? hr⟩, rfl⟩
  · cases hs

/-- A call is of a symbol of its module. -/
theorem below_of_calls {e : Sym String × Linker.Def String (Option δ) Op GlobalInfo}
    {s : Sym String} (he : e ∈ M.defs) (h : s ∈ calls e.2) : s.Below M.next := by
  obtain ⟨r, hr, rfl⟩ := mem_refs_of_calls h
  exact M.refs_below e he r hr

theorem reach_iff : (∀ X f e, M.Kept srcs X f e → ∀ s ∈ calls e.2,
      ((M.linkAll srcs).binding (f s)).SameTarget (X.binding s)) ↔
    (∀ e ∈ M.defs, Survives e.1.name? srcs → ∀ s ∈ calls e.2, (M.binding s).Stays srcs)
      ∧ ∀ pre S post, srcs = pre ++ S :: post → ∀ e ∈ S.mod.defs,
        Survives (Module.privatiseKey S.entry e.1.name?) post → ∀ s ∈ calls e.2,
          (S.mod.binding s).Enters (fun n => definedAfter n (M.defines n) pre) S post := by
  have hdef (pre : List (LSource δ)) :
      (fun n => definedAfter n (M.defines n) pre) = (M.linkAll pre).defines :=
    funext fun n => Module.defines_linkAll.symm
  simp only [hdef]
  constructor
  · intro h
    constructor
    · intro e he hs s hcall
      have := h M _ e (.own he hs) s hcall
      rwa [Module.binding_movedAll (below_of_calls he hcall), Binding.sameTarget_afterAll] at this
    · rintro pre S post rfl e he hs s hcall
      have := h S.mod _ e (.source rfl he hs) s hcall
      rwa [Function.comp_apply, Module.binding_source (below_of_calls he hcall),
        Binding.sameTarget_entering] at this
  · rintro ⟨hown, hsources⟩ X f e hkept s hcall
    cases hkept with
    | own he hs =>
      rw [Module.binding_movedAll (below_of_calls he hcall), Binding.sameTarget_afterAll]
      exact hown e he hs s hcall
    | @source pre S post _ hsrcs he hs =>
      subst hsrcs
      rw [Function.comp_apply, Module.binding_source (below_of_calls he hcall),
        Binding.sameTarget_entering]
      exact hsources pre S post rfl e he hs s hcall

/-- Nothing is captured exactly when no source defines the name of the function, no source touches
a name that is called and not defined, and every name that is called and defined keeps its
definition. -/
theorem capturesNothing_iff (hx : M.shape? callee = some x)
    (h : getInlineArgs P C FHLL wrapperHLL ⟨M, []⟩ = .ok (S', vs)) :
    CapturesNothing P M callee FHLL C S' vs
      ↔ KeepsCalls M callee (contextSources P FHLL.args C) := by
  obtain ⟨rfl, vss, hvs, hpassed⟩ := getInlineArgs_ok h
  constructor
  · rintro ⟨hpresent, -, hreach, -⟩
    rw [LinkState.mod_linkSources] at hreach
    obtain ⟨hown, hsources⟩ := reach_iff.1 hreach
    refine ⟨fun src hsrc n hn => hpresent n hn _ ?_, hown, hsources⟩
    rw [LinkState.linked_linkSources]
    exact List.mem_append_right _ (List.mem_map_of_mem hsrc)
  · rintro ⟨hkeep, hown, hsources⟩
    refine ⟨fun n hn LM hLM => ?_, ?_, ?_, vss, hvs, ?_⟩
    · rw [LinkState.linked_linkSources, List.nil_append] at hLM
      obtain ⟨src, hsrc, rfl⟩ := List.mem_map.1 hLM
      exact hkeep src hsrc n hn
    · rw [LinkState.mod_linkSources]
      exact shape?_callee hx hkeep
    · rw [LinkState.mod_linkSources]
      exact reach_iff.2 ⟨hown, hsources⟩
    · refine hpassed.imp fun y ws hy hf => ?_
      rw [Passed, hf] at hy
      obtain ⟨cs, hws, -, hcap⟩ := hy
      exact ⟨cs, hws, hcap⟩

section Samples

attribute [local instance] BitcodeFormat.self

open Sample

/-- A function `f` of a function, which calls `g`. -/
def applying : LModule Unit :=
  define .empty 0 "f" [.ptr (.func .void [])] [inst (.call []) [("g", ())]]

/-- A compiled function `noop` is linked in. -/
theorem capturesNothing_otherName :
    let P : Process (LModule Unit) Unit := process []
    let C : Context := { argumentMapping := [.module 0] }
    let HLL : HighLevelLayout := ⟨none, [paramArg 0 (.ptr (.func .void []))], .void⟩
    ∃ S vs, getInlineArgs P C HLL ⟨none, [], .void⟩ ⟨applying, []⟩ = .ok (S, vs)
      ∧ CapturesNothing P applying (.ext "f") HLL C S vs := by
  intro P C HLL
  have h : getInlineArgs P C HLL ⟨none, [], .void⟩ ⟨applying, []⟩ = .ok (_, _) := rfl
  have hx : applying.shape? (.ext "f") = some _ := rfl
  have hsrcs : contextSources P HLL.args C = [P.moduleSource 0] := rfl
  refine ⟨_, _, h, (capturesNothing_iff hx h).2 ?_⟩
  rw [hsrcs]
  refine ⟨?_, ?_, ?_⟩
  · rintro src (_ | ⟨_, ⟨⟩⟩) n ⟨⟩
    rfl
  · rintro e (_ | ⟨_, ⟨⟩⟩) - s (_ | ⟨_, ⟨⟩⟩) src (_ | ⟨_, ⟨⟩⟩)
    decide
  · rintro pre S post hin e he - s hs
    obtain ⟨rfl, rfl, rfl⟩ := singleton_eq_append_cons hin
    obtain rfl := List.mem_singleton.1 he
    cases hs

/-- A compiled function that is called `f` itself is linked in. -/
theorem not_capturesNothing_sameName :
    let P : Process (LModule Unit) Unit := { process [] with modules := fun _ => compiled "f" }
    let F := function 0 "f" [.ptr (.func .void [])]
    let C : Context := { argumentMapping := [.module 0] }
    ∃ HLL newHLL S vs, applying.shape? (.ext "f") = some ⟨.function F, [(.call [], [some ()])]⟩
      ∧ HighLevelLayout.ofFunction F = .ok HLL ∧ getNewLayout C HLL = .ok newHLL
      ∧ getInlineArgs P C HLL newHLL ⟨applying, []⟩ = .ok (S, vs)
      ∧ ¬ CapturesNothing P applying (.ext "f") HLL C S vs := by
  refine ⟨_, _, _, _, rfl, rfl, rfl, rfl, fun h => ?_⟩
  have := h.present "f" rfl _ (.head _)
  cases this

end Samples

end EasyJit
