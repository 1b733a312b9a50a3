import EasyJit.Proofs.Context
import EasyJit.Proofs.Function

/-!
# The emitted bytes

The bytes are read back from the text they are emitted as (`parseBytes_buildEmitString`), which
no stub has, so that the pass puts exactly the bytes in place of the stubs and finds no stub when
it runs again (`emitCodes_exact`).

`operator==` looks at neither the bytes nor the reserved registers, so that equal contexts give
the same code when these happen to be the same, or when the function has no stub for the bytes
(`sameInputs_iff`).
-/

namespace EasyJit

open LLVM Linker

/-! ## The texts -/

/-- The directive for one byte. -/
def directive (b : UInt8) : String := ".byte " ++ toString b.toNat

theorem toList_directive (b : UInt8) :
    (directive b).toList = ".byte ".toList ++ Nat.toDigits 10 b.toNat := by
  rw [directive, String.toList_append, Decimal.toList_toString]

theorem toList_buildEmitString (src : List UInt8) :
    (buildEmitString src).toList = src.flatMap fun b => (directive b).toList ++ [';'] := by
  rw [buildEmitString, String.toList_join, List.flatMap_map]
  exact List.flatMap_congr fun b _ => String.toList_append

theorem parseStatement_directive (b : UInt8) :
    parseStatement (directive b).toList = some [b] := by
  rw [toList_directive]
  have hne : ".byte ".toList ++ Nat.toDigits 10 b.toNat ≠ [] :=
    List.append_ne_nil_of_left_ne_nil (by decide) _
  have hprefix : ".byte ".toList.isPrefixOf (".byte ".toList ++ Nat.toDigits 10 b.toNat) = true :=
    List.isPrefixOf_iff_prefix.2 (List.prefix_append _ _)
  rw [parseStatement, if_neg hne, if_pos hprefix, List.drop_left, Decimal.read_toDigits,
    Option.bind_some, if_pos b.toNat_lt, UInt8.ofNat_toNat]

theorem semicolon_notMem_directive (b : UInt8) : ';' ∉ (directive b).toList := by
  rw [toList_directive, List.mem_append, not_or]
  exact ⟨by decide, Decimal.not_mem_toDigits (by decide) _⟩

/-- The directives stand for the bytes they were made for. -/
theorem parseBytes_buildEmitString (src : List UInt8) :
    parseBytes (buildEmitString src) = some src := by
  rw [parseBytes, toList_buildEmitString]
  induction src with
  | nil => rfl
  | cons b src ih =>
    obtain ⟨bss, hbss, hflatten⟩ := Option.map_eq_some_iff.1 ih
    rw [List.flatMap_cons, List.append_assoc, List.singleton_append,
      List.splitOn_append_cons_self_of_not_mem (semicolon_notMem_directive b), List.mapM_cons,
      parseStatement_directive, hbss]
    simp [hflatten]

theorem buildEmitString_injective : Function.Injective buildEmitString := by
  intro bs cs h
  have hparse := congrArg parseBytes h
  rw [parseBytes_buildEmitString, parseBytes_buildEmitString] at hparse
  exact Option.some.inj hparse

theorem buildEmitString_ne_stubString (src : List UInt8) : buildEmitString src ≠ stubString := by
  intro h
  have hparse := parseBytes_buildEmitString src
  rw [h] at hparse
  cases hparse

theorem isEmpty_buildEmitString {src : List UInt8} (h : src ≠ []) :
    (buildEmitString src).isEmpty = false := by
  rw [Bool.eq_false_iff]
  intro hempty
  have heq : buildEmitString src = buildEmitString [] := String.isEmpty_iff.1 hempty
  exact h (buildEmitString_injective heq)

section Emit

variable {s t : String} {δ : Type} {M : LModule δ} {name : String} {C D : Context}

/-! ## One instruction -/

theorem emitOp_stub {asm : InlineAsm} (h : asm.asmString = stubString) :
    emitOp s (.inlineAsm asm) = .inlineAsm { asm with
      asmString := s
      hasSideEffects := if s.isEmpty then false else asm.hasSideEffects } := by
  rw [emitOp, if_neg (not_not.2 h)]

theorem emitOp_other {op : Op} (h : ∀ asm, op = .inlineAsm asm → asm.asmString ≠ stubString) :
    emitOp s op = op := by
  cases op with
  | inlineAsm asm => rw [emitOp, if_pos (h asm rfl)]
  | _ => rfl

/-- A stub's new text is not that of a stub. -/
theorem emitOp_emitOp (h : s ≠ stubString) (op : Op) : emitOp t (emitOp s op) = emitOp s op := by
  by_cases hstub : ∃ asm, op = .inlineAsm asm ∧ asm.asmString = stubString
  · obtain ⟨asm, rfl, hasm⟩ := hstub
    rw [emitOp_stub hasm]
    refine emitOp_other fun asm' hop => ?_
    cases hop
    exact h
  · rw [emitOp_other fun asm hop hasm => hstub ⟨asm, hop, hasm⟩,
      emitOp_other fun asm hop hasm => hstub ⟨asm, hop, hasm⟩]

theorem emitOp_emits (b : List UInt8) (i : Inst String (Option δ) Op) :
    EmitsInto b i ⟨emitOp (buildEmitString b) i.op, i.refs⟩ where
  refs := rfl
  stub := by
    intro asm hop hasm
    have hside (hb : b ≠ []) : (if (buildEmitString b).isEmpty then false
        else asm.hasSideEffects) = asm.hasSideEffects := by
      rw [isEmpty_buildEmitString hb]
      rfl
    exact ⟨buildEmitString b, _, parseBytes_buildEmitString b, hside,
      (congrArg (emitOp _) hop).trans (emitOp_stub hasm)⟩
  other := emitOp_other

/-! ## The function -/

theorem mapOps_emits (b : List UInt8) (F : Sym String) :
    EmitsBytes b (some F) M (M.mapOps F (emitOp (buildEmitString b))) where
  defs := by
    rw [Module.mapOps, List.forall₂_map_right_iff, List.forall₂_same]
    intro e _
    by_cases hF : e.1 = F
    · rw [if_pos hF, if_pos (congrArg some hF.symm)]
      refine ⟨rfl, rfl, ?_⟩
      rw [Def.mapOps, List.forall₂_map_right_iff, List.forall₂_same]
      exact fun i _ => emitOp_emits b i
    · rw [if_neg hF, if_neg fun h => hF (Option.some.inj h).symm]
  next := rfl
  declared := rfl
  localNames := rfl
  metadata := rfl

theorem emitCodes_emits : EmitsBytes C.rawBytes.bytes (getFunction M name) M
    (emitCodes M name C) := by
  unfold emitCodes
  cases getFunction M name with
  | none => exact ⟨List.forall₂_same.2 fun _ _ => rfl, rfl, rfl, rfl, rfl⟩
  | some F => exact mapOps_emits C.rawBytes.bytes F

theorem emitCodes_emitCodes : emitCodes (emitCodes M name C) name D = emitCodes M name C := by
  rw [emitCodes, getFunction_emitCodes]
  unfold emitCodes
  cases getFunction M name with
  | none => rfl
  | some F =>
    have hcomp : emitOp (buildEmitString D.rawBytes.bytes) ∘ emitOp (buildEmitString
        C.rawBytes.bytes) = emitOp (buildEmitString C.rawBytes.bytes) :=
      funext (emitOp_emitOp (buildEmitString_ne_stubString _))
    dsimp only
    rw [Module.mapOps_mapOps, hcomp]

theorem emitCodes_of_not_hasStub (h : ¬ HasStub M name) : emitCodes M name C = M := by
  unfold emitCodes
  cases hF : getFunction M name with
  | none => rfl
  | some F =>
    refine Module.mapOps_eq_self fun e he heF i hi => emitOp_other fun asm hasm hstr => ?_
    exact h ⟨e, he, by rw [hF, heF], i, hi, asm, hasm, hstr⟩

/-- There is no stub where there is no inline assembly. -/
theorem not_hasStub_of_not_changed (h : emitCodesChanged M name = false) : ¬ HasStub M name := by
  rintro ⟨e, he, heF, i, hi, asm, hasm, -⟩
  rw [emitCodesChanged, heF] at h
  have hno := List.any_eq_false.1 h e he
  refine hno (Bool.and_eq_true_iff.2 ⟨decide_eq_true rfl, ?_⟩)
  exact List.any_eq_true.2 ⟨i, hi, by rw [hasm]⟩

/-- The pass does not say of a change that it made none. -/
theorem emitCodes_of_not_changed (h : emitCodesChanged M name = false) :
    emitCodes M name C = M :=
  emitCodes_of_not_hasStub (not_hasStub_of_not_changed h)

/-- The bytes are seen only in a stub. -/
theorem emitCodes_eq_iff : emitCodes M name C = emitCodes M name D
    ↔ C.rawBytes.bytes = D.rawBytes.bytes ∨ ¬ HasStub M name := by
  constructor
  · intro h
    by_contra hnot
    obtain ⟨hne, hstub⟩ := not_or.1 hnot
    obtain ⟨e, he, hF, i, hi, asm, hasm, hstr⟩ := not_not.1 hstub
    rw [emitCodes, hF, emitCodes, hF] at h
    have hdefs := congrArg (·.defs) h
    simp only [Module.mapOps] at hdefs
    have hbody := List.map_inj_left.1 hdefs e he
    simp only [if_true, Def.mapOps, Prod.mk.injEq, Def.mk.injEq, true_and] at hbody
    have hop := List.map_inj_left.1 hbody i hi
    simp only [Inst.mk.injEq, and_true, hasm, emitOp_stub hstr, Op.inlineAsm.injEq,
      InlineAsm.mk.injEq] at hop
    exact hne (buildEmitString_injective hop.2.1)
  · rintro (h | h)
    · rw [emitCodes, emitCodes, h]
    · rw [emitCodes_of_not_hasStub h, emitCodes_of_not_hasStub h]

/-- Every stub of the target function has the bytes and nothing else is changed, a second time
nothing at all, whatever the bytes; and different bytes have different texts. -/
theorem emitCodes_exact (M : LModule δ) (name : String) (C : Context) :
    EmitsBytes C.rawBytes.bytes (getFunction M name) M (emitCodes M name C)
      ∧ (∀ D, emitCodes (emitCodes M name C) name D = emitCodes M name C)
      ∧ ∀ b b', buildEmitString b = buildEmitString b' → b = b' :=
  ⟨emitCodes_emits, fun _ => emitCodes_emitCodes, fun _ _ h => buildEmitString_injective h⟩

end Emit

section Congruence

variable {β δ : Type} [BitcodeFormat β δ] {P : Process β δ} {B : Backend δ} {C D : Context}
  {addr : Ptr}

/-- The passes read only the arguments of a context. -/
theorem runOnModule_congr (h : C.argumentMapping = D.argumentMapping) (M : LModule δ)
    (name : String) : runOnModule P M name C = runOnModule P M name D := by
  have hlayout (HLL : HighLevelLayout) : getNewLayout C HLL = getNewLayout D HLL := by
    unfold getNewLayout numNewArgs Context.size
    rw [h]
  have hwrapper (callee : Sym String) (F : FunctionInfo) (HLL : HighLevelLayout) :
      createWrapperFun P M callee F HLL C = createWrapperFun P M callee F HLL D := by
    simp only [createWrapperFun, hlayout, getInlineArgs, h]
  simp only [runOnModule, hwrapper]

theorem eq_of_beq : ∀ {as bs : List Argument}, List.Forall₂ (fun a b => (a == b) = true) as bs →
    (∀ a ∈ as, a.kind ≠ .float) → as = bs
  | [], [], .nil, _ => rfl
  | a :: as, b :: bs, .cons hab h, hf => by
    rw [List.forall_mem_cons] at hf
    have heq : a = b := by
      rcases Argument.beq_iff.1 hab with ⟨heq, -⟩ | htwins
      · exact heq
      · cases a <;> cases b <;> simp only [Argument.ZeroTwins] at htwins
        exact absurd rfl hf.1
    rw [heq, eq_of_beq h hf.2]

/-- Where no argument is a floating-point number, equal contexts have the same arguments and
levels, so that the code is the same exactly when the reserved registers are, and the bytes are or
the function has no stub. -/
theorem sameInputs_iff (h : (C == D) = true) (hC : ∀ a ∈ C.argumentMapping, a.kind ≠ .float) :
    SameInputs P B addr C D ↔ C.rawBytes.reservedRegs = D.rawBytes.reservedRegs
      ∧ (C.rawBytes.bytes = D.rawBytes.bytes
        ∨ ∀ name M, loaded P addr = .ok (name, M) → ¬ HasStub M name) := by
  obtain ⟨hlevels, hargs⟩ := Context.beq_iff.1 h
  have hargs : C.argumentMapping = D.argumentMapping := eq_of_beq hargs hC
  constructor
  · intro hsame
    refine ⟨hsame.registers, ?_⟩
    by_cases hbytes : C.rawBytes.bytes = D.rawBytes.bytes
    · exact .inl hbytes
    · exact .inr fun name M hload =>
        (emitCodes_eq_iff.1 (hsame.stubs name M hload)).resolve_left hbytes
  · rintro ⟨hregs, hbytes⟩
    have hstubs : ∀ name M, loaded P addr = .ok (name, M) →
        emitCodes M name C = emitCodes M name D :=
      fun name M hload => emitCodes_eq_iff.2 (hbytes.imp_right fun hno => hno name M hload)
    refine ⟨hargs, hlevels, hstubs, hregs, ?_⟩
    cases hr : P.registration? addr with
    | none =>
      have hnone (E : Context) : prepare P B addr E = .error .BitcodeNotRegistered := by
        simp only [prepare, Process.getNameAndGlobalMapping_eq, hr, bind, Except.bind]
      rw [hnone, hnone]
    | some r =>
      rw [prepare_eq hr, prepare_eq hr]
      refine Except.bind_congr fun x hload => ?_
      rw [hstubs x.1 x.2 hload, runOnModule_congr hargs, hlevels, hregs]

section Samples

attribute [local instance] BitcodeFormat.self

open Sample

/-- A function with a stub. -/
def stubbed : Process (LModule Unit) Unit :=
  process [register 1 "f" [] (define .empty 0 "f" [.int 32]
    [inst (.inlineAsm ⟨.func .void [], stubString, "", true, false, false⟩) []])
    one_ne_null isCString_f rfl rfl]

/-- The dump file makes no difference. -/
theorem sameInputs_debugFile : SameInputs stubbed backend 1
    { argumentMapping := [.int 3], debugFile := "dump.ll" } { argumentMapping := [.int 3] } :=
  (sameInputs_iff (by decide) (by decide)).2 ⟨rfl, .inl rfl⟩

/-- The bytes and the registers that `jit_` is given do. -/
theorem not_sameInputs_rawBytes :
    let C : Context := { argumentMapping := [.int 3], rawBytes := ⟨[0xcc], ["r12"]⟩ }
    let D : Context := { argumentMapping := [.int 3] }
    (C == D) = true ∧ (∀ a ∈ C.argumentMapping, a.kind ≠ .float)
      ∧ ¬ SameInputs stubbed backend 1 C D := by
  refine ⟨by decide, by decide, fun h => ?_⟩
  exact absurd h.registers (by decide)

end Samples

end Congruence

end EasyJit
