import EasyJit.Sample
import EasyJit.Proofs.Function

/-!
# Which variable a reference reaches

The pass adds no reference to a variable and takes none away, so that what is left to the engine
is what linking leaves (`linked_ok`). A name that is left is looked up in one table, that of the
function which is compiled (`resolves_iff`).
-/

namespace EasyJit

open LLVM Linker

variable {β δ : Type} [BitcodeFormat β δ] {P : Process β δ} {B : Backend δ} {C : Context}
  {addr : Ptr} {M : LModule δ} {name : String} {W : Wrapper} {globals : GlobalMapping}

/-! ## The module before LLVM's own passes -/

/-- A compilation ends with LLVM's own passes. -/
theorem linked_of_prepare {I : CodegenInput δ} (h : prepare P B addr C = .ok I) :
    ∃ M, linked P addr C = .ok (I.globals, M) ∧ I.mod = B.optimise C.getOptLevel M := by
  obtain ⟨r, M, M', W, hr, hload, hrun, rfl⟩ := prepare_ok h
  refine ⟨M', ?_, rfl⟩
  simp only [linked, Process.getNameAndGlobalMapping_eq, hr, hload, hrun, bind, Except.bind]

theorem mentions_makeUniqueName (T : SymbolTable δ) (M : LModule δ) (base : String) :
    M.mentions (T.makeUniqueName M base) = false := by
  rw [← Bool.not_eq_true]
  exact fun h => T.unused M base (mem_usedNames_of_mentions h)

theorem denotes_toDef {v : δ} : ∀ r ∈ W.toDef.refs, r.denotes ≠ some v := by
  intro r hr
  simp only [Wrapper.toDef, Def.refs, List.flatMap_cons, List.flatMap_nil, List.append_nil,
    List.mem_map] at hr
  obtain ⟨s, -, rfl⟩ := hr
  intro h
  cases h

/-- The wrapper leaves the references there were as they are. -/
theorem declares_wrap {T : SymbolTable δ} {callee : Sym String} {x : LShape δ}
    (hx : M.shape? callee = some x) {v : δ} {o : Option String} :
    (wrap T M name callee W).Declares (some v) o ↔ M.Declares (some v) o := by
  have hmark : (wrap T M name callee W).Declares (some v) o
      ↔ ((privatiseCallee M callee).1.define (currentName T M name callee) W.toDef).Declares
        (some v) o := Iff.rfl
  rw [hmark]
  cases callee with
  | ext n =>
    have hd : M.defines n = true := by rw [Module.defines, hx]; rfl
    exact (Module.declares_define Module.mentions_privatise denotes_toDef).trans
      (Module.declares_privatise hd)
  | loc k =>
    refine Module.declares_define ?_ denotes_toDef
    show M.mentions (currentName T M name (.loc k)) = false
    rw [currentName]
    split
    · rename_i h
      exact h.2
    · exact mentions_makeUniqueName T M name

/-- What is declared in a compiled module is what linking leaves declared. -/
theorem linked_ok (h : linked P addr C = .ok (globals, M)) :
    ∃ r LM, P.registration? addr = some r ∧ BitcodeFormat.parse r.info.bitcode = some LM
      ∧ globals = r.info.globals
      ∧ ∀ v o, M.Declares (some v) o
        ↔ (LM.linkAll (linkedIn P LM r.info.name C)).Declares (some v) o := by
  simp only [linked, Process.getNameAndGlobalMapping_eq, Except.bind_eq_ok] at h
  obtain ⟨⟨name, globals'⟩, hname, ⟨name', N⟩, hload, ⟨M', W⟩, hrun, heq⟩ := h
  cases heq
  obtain ⟨r, LM, s, hr, hLM, rfl, hs, rfl⟩ := loaded_ok hload
  simp only [hr, Except.ok.injEq, Prod.mk.injEq] at hname
  obtain ⟨-, rfl⟩ := hname
  obtain ⟨callee, F, body, W₀, hcallee, hF, -, -, hsize, hW, -, rfl⟩ := runOnModule_ok hrun
  obtain ⟨-, -, -, hkeep, -⟩ := createWrapperFun_ok hsize hW
  have hshape := shape?_callee hF hkeep
  rw [hF] at hshape
  have hin : linkedIn P LM r.info.name C = (calledNames LM s).flatMap P.calleeSources
      ++ contextSources P (F.params.mapIdx paramArg) C := by
    have hinfo := hF ▸ info?_emitCodes callee
    obtain ⟨⟨info, body'⟩, hF', hinfo'⟩ := Option.map_eq_some_iff.1 hinfo.symm
    cases hinfo'
    rw [getFunction_emitCodes] at hcallee
    simp only [linkedIn, hs, Option.map_some, Option.getD_some, hcallee, Option.bind_some, hF']
  refine ⟨r, LM, hr, hLM, rfl, fun v o => ?_⟩
  rw [declares_wrap hshape, hin, Module.linkAll_append]
  exact Module.declares_congr (sameRefs_emitCodes.linkAll _)

/-! ## Which address -/

section Resolve

variable {b : Binding String (LShape δ)} {S : LSource δ} {pre srcs : List (LSource δ)} {a : Ptr}

theorem resolve_afterAll : resolve globals (b.afterAll srcs) = some a ↔
    ∃ n, b.declared? = some n ∧ (∀ S ∈ srcs, ¬ S.Touches n) ∧ globals.lookup n = some a := by
  simp only [resolve, Option.bind_eq_some_iff, Binding.declared?_afterAll, and_assoc]

theorem resolve_entering :
    resolve globals ((b.entering (M.linkAll pre) S).afterAll srcs) = some a ↔
      ∃ n, b.declared? = some n ∧ definedAfter n (M.defines n) pre = false ∧ S.entry ≠ n
        ∧ (∀ S' ∈ srcs, ¬ S'.Touches n) ∧ globals.lookup n = some a := by
  simp only [resolve_afterAll, Binding.declared?_entering, Module.defines_linkAll, and_assoc]

end Resolve

section Variables

variable {β : Type} [BitcodeFormat β Variable] {P : Process β Variable} (R : Registry P)
  {M : LModule Variable}

theorem Registry.resolves_iff_declares : R.Resolves globals M ↔ ∀ v o, M.Declares (some v) o →
    ∃ a, (R.table v.1).lookup v.2 = some a ∧ o.bind (globals.lookup ·) = some a := by
  rw [Registry.Resolves, forall_comm]
  refine forall_congr' fun v => ?_
  rw [Module.forall_declares (p := fun o => ∃ a, (R.table v.1).lookup v.2 = some a
    ∧ o.bind (globals.lookup ·) = some a)]
  rfl

/-- The references of a compiled module resolve to the right variables exactly when no name of
the function's own variables is touched, and what is linked in refers to variables by names that
nothing defines and that the function's table has the right addresses for. -/
theorem Registry.resolves_iff (h : linked P addr C = .ok (globals, M)) :
    R.Resolves globals M ↔ R.KeepsVariables addr C := by
  obtain ⟨r, LM, hr, hLM, rfl, hdecl⟩ := linked_ok h
  have hmem : r ∈ P.registrations := List.mem_of_find?_eq_some hr
  have hown {key : Option String} {v : Variable} {b : Binding String (LShape Variable)}
      (hb : LM.Binds key (some v) b) : b.declared? = some v.2
        ∧ ∃ a, (R.table v.1).lookup v.2 = some a ∧ r.info.globals.lookup v.2 = some a := by
    have href : r.Refers v b := ⟨LM, hLM, key, hb⟩
    obtain ⟨hunit, hdec⟩ := R.own r hmem v b href
    obtain ⟨a, ha⟩ := R.listed r hmem v b href
    exact ⟨hdec, a, ha, by rw [R.mapping r hmem, ← hunit, ha]⟩
  rw [R.resolves_iff_declares]
  simp only [hdecl, Module.forall_declares_linkAll]
  constructor
  · rintro hres r' LM' hr' hLM'
    rw [hr] at hr'
    cases hr'
    rw [hLM] at hLM'
    cases hLM'
    constructor
    · intro key v b hb hs
      obtain ⟨a, -, ha⟩ := (hres v).1 key b hb hs
      obtain ⟨n, hn, htouch, -⟩ := resolve_afterAll.1 ha
      rw [(hown hb).1] at hn
      cases hn
      exact htouch
    · intro pre S post hsrcs key v b hb hs
      obtain ⟨a, hv, ha⟩ := (hres v).2 pre S post hsrcs key b hb hs
      obtain ⟨n, hn, hpre, hentry, hpost, hglobals⟩ := resolve_entering.1 ha
      exact ⟨n, a, hn, hpre, hentry, hpost, hv, hglobals⟩
  · intro hkeep v
    obtain ⟨hbase, hsources⟩ := hkeep r LM hr hLM
    constructor
    · intro key b hb hs
      obtain ⟨hdec, a, hv, ha⟩ := hown hb
      exact ⟨a, hv, resolve_afterAll.2 ⟨v.2, hdec, hbase key v b hb hs, ha⟩⟩
    · intro pre S post hsrcs key b hb hs
      obtain ⟨n, a, hn, hpre, hentry, hpost, hv, hglobals⟩ :=
        hsources pre S post hsrcs key v b hb hs
      exact ⟨a, hv, resolve_entering.2 ⟨n, hn, hpre, hentry, hpost, hglobals⟩⟩

end Variables

section Samples

attribute [local instance] BitcodeFormat.self

open Sample

/-- A function that reads the variable `x` of its unit, and may call another one. -/
def reader (unit : UnitId) (name : String) (params : List Ty) (calls : List String) :
    LModule Variable :=
  define .empty unit name params
    (inst (.other "load") [("x", (unit, "x"))] :: calls.map fun n => ⟨.call [], [⟨.ext n, none⟩]⟩)

/-- The variable `x` of each unit. -/
def table (unit : UnitId) : GlobalMapping := [("x", 100 * (unit + 1))]

/-- A function `f` of unit `0`, which calls `g` of the unit `unit`. -/
def caller (unit : UnitId) : Process (LModule Variable) Variable :=
  process [register 1 "f" (table 0) (reader 0 "f" [.int 32] ["g"]) one_ne_null isCString_f rfl rfl,
    register 2 "g" (table unit) (reader unit "g" [] []) two_ne_null isCString_g rfl rfl]

theorem binds_reader {unit : UnitId} {name : String} {params : List Ty} {calls : List String}
    {key : Option String} {v : Variable} {b : Binding String (LShape Variable)} (hx : name ≠ "x")
    (h : (reader unit name params calls).Binds key (some v) b) :
    key = some name ∧ v = (unit, "x") ∧ b = .named "x" none := by
  obtain ⟨e, he, rfl, r, hr, hv, rfl⟩ := h
  obtain rfl := List.mem_singleton.1 he
  obtain ⟨i, hi, hr⟩ := List.mem_flatMap.1 hr
  rcases List.mem_cons.1 hi with rfl | hi
  · obtain rfl := List.mem_singleton.1 hr
    cases hv
    have hne : ¬ Linker.Sym.ext name = .ext "x" := fun h => hx (Linker.Sym.ext.inj h)
    have hnone : (reader unit name params calls).shape? (.ext "x") = none := by
      simp [Module.shape?, Module.shapeIn, reader, define, Module.define, Module.empty, hne]
    exact ⟨rfl, rfl, congrArg (Binding.named "x") hnone⟩
  · obtain ⟨n, -, rfl⟩ := List.mem_map.1 hi
    obtain rfl := List.mem_singleton.1 hr
    cases hv

def units (unit : UnitId) : Registry (caller unit) where
  unit r := if r.info.name = "g" then unit else 0
  table := table
  mapping := by
    rintro r (_ | ⟨_, _ | ⟨_, ⟨⟩⟩⟩) <;> rfl
  own := by
    rintro r (_ | ⟨_, _ | ⟨_, ⟨⟩⟩⟩) v b ⟨_, ⟨⟩, key, hb⟩ <;>
    · obtain ⟨-, rfl, rfl⟩ := binds_reader (by decide) hb
      exact ⟨rfl, rfl⟩
  listed := by
    rintro r (_ | ⟨_, _ | ⟨_, ⟨⟩⟩⟩) v b ⟨_, ⟨⟩, key, hb⟩ <;>
    · obtain ⟨-, rfl, -⟩ := binds_reader (by decide) hb
      exact ⟨_, rfl⟩

/-- Both functions are of one unit. -/
theorem resolves_sameUnit : ∃ M, linked (caller 0) 1 { argumentMapping := [.forward 0] }
    = .ok (table 0, M) ∧ (units 0).Resolves (table 0) M := by
  have h : linked (caller 0) 1 { argumentMapping := [.forward 0] } = .ok (table 0, _) := rfl
  refine ⟨_, h, ((units 0).resolves_iff h).2 ?_⟩
  rintro r LM ⟨⟩ ⟨⟩
  have hin : linkedIn (caller 0) (reader 0 "f" [.int 32] ["g"]) "f"
      { argumentMapping := [.forward 0] } = [⟨reader 0 "g" [] [], "g"⟩] := rfl
  constructor
  · rintro key v b hb - S hS
    obtain ⟨-, rfl, -⟩ := binds_reader (by decide) hb
    obtain rfl := List.mem_singleton.1 (hin ▸ hS)
    decide
  · rintro pre S post hsrcs key v b hb -
    obtain ⟨rfl, rfl, rfl⟩ := singleton_eq_append_cons (hin.symm.trans hsrcs)
    obtain ⟨-, rfl, rfl⟩ := binds_reader (by decide) hb
    exact ⟨"x", 100, rfl, rfl, by decide, nofun, rfl, rfl⟩

/-- The functions are of different units, with a variable of the same name in each. -/
theorem not_resolves_otherUnit : ∃ M, linked (caller 1) 1 { argumentMapping := [.forward 0] }
    = .ok (table 0, M) ∧ ¬ (units 1).Resolves (table 0) M := by
  refine ⟨_, rfl, fun h => ?_⟩
  -- what `g` reads is looked up in the table of `f`
  obtain ⟨a, hunit, hf⟩ := h none (1, "x") (.named "x" none)
    ⟨_, .tail _ (.head _), rfl, _, .head _, rfl, rfl⟩
  cases hunit
  cases hf

end Samples

end EasyJit
